import InMemoryTable.TableIteration

/-! A call on a single record that returns an error has written nothing. The slot
of an insertion is written before its node, so that nothing may fail between them. -/
namespace InMemoryTable
open Transition

namespace Slots
variable {B : Type} {store after : Slots B} {data : List B} {e : InMemoryTableError}

theorem insert_error (failed : store.insert data = (.error e, after)) : after = store := by
  simp only [insert] at failed
  split at failed
  · exact (Prod.mk.inj failed).2.symm
  split at failed
  · exact (Prod.mk.inj failed).2.symm
  · cases failed

theorem update_error {index : Nat} (failed : store.update index data = (.error e, after)) :
    after = store := by
  simp only [update] at failed
  split at failed
  · exact (Prod.mk.inj failed).2.symm
  · cases failed

end Slots

namespace Table
variable {K T R B : Type} {table : Table K B} {codec : Bincode T} {memory after : TableMemory B}
  {e : InMemoryTableError}

theorem update_refused {index : Nat} {record : T}
    (failed : update codec memory index record = (.error e, after)) : after = memory := by
  simp only [update] at failed
  split at failed
  · exact (Prod.mk.inj failed).2.symm
  · rename_i serialized _
    obtain ⟨refused, same⟩ := Prod.mk.inj failed
    have written : memory.slots.update index serialized =
        (.error e, (memory.slots.update index serialized).2) := Prod.ext refused rfl
    rw [← same, Slots.update_error written]

/-- What the later step of an insertion and of a removal rests on: after the slot
has been written, the index does its part. -/
structure Completes [DecidableEq K] (table : Table K B) (memory : TableMemory B) : Prop where
  insert : ∀ key data index slots, memory.slots.insert data = (.ok index, slots) →
    ∃ block, table.primaryKeys.insert memory.index key index = some (.ok (), block)
  remove : ∀ key index, table.primaryKeys.get memory.index key = some (some index) →
    ∃ block, table.primaryKeys.remove memory.index key = some (.ok (), block)

section Calls
variable [DecidableEq K] {semop : Nat → Except Errno Unit}

theorem updateWithLock_error {key : K} {f : T → R × T}
    (failed : table.updateWithLock codec semop memory key f = some (.error e, after)) :
    after = memory := by
  simp only [updateWithLock, bind, Option.bind_eq_some_iff] at failed
  obtain ⟨position, -, failed⟩ := failed
  cases position with
  | none => cases failed
  | some index =>
    simp only at failed
    split at failed
    · cases failed
      rfl
    split at failed
    · cases failed
      rfl
    · cases failed
    rename_i record read
    split at failed
    · rename_i refused
      cases failed
      exact update_refused refused
    · cases failed

theorem insert_error [TableRecord T K] (completes : table.Completes memory) {record : T}
    (failed : table.insert codec semop memory record = some (.error e, after)) :
    after = memory := by
  simp only [insert, bind, Option.bind_eq_some_iff] at failed
  obtain ⟨position, -, failed⟩ := failed
  cases position with
  | some index => cases failed; rfl
  | none =>
    simp only at failed
    split at failed
    · cases failed
      rfl
    split at failed
    · cases failed
      rfl
    split at failed
    · rename_i refused
      cases failed
      rw [Slots.insert_error refused]
    · rename_i index slots stored
      obtain ⟨block, linked⟩ := completes.insert (TableRecord.key record) _ index slots stored
      simp only [linked, Option.bind_some] at failed
      cases failed

theorem remove_error (completes : table.Completes memory) {key : K}
    (failed : table.remove semop memory key = some (.error e, after)) : after = memory := by
  simp only [remove, bind, Option.bind_eq_some_iff] at failed
  obtain ⟨position, found, failed⟩ := failed
  cases position with
  | none => cases failed
  | some index =>
    simp only at failed
    split at failed
    · cases failed
      rfl
    · obtain ⟨block, unlinked⟩ := completes.remove key index found
      simp only [unlinked, Option.bind_some] at failed
      cases failed

end Calls
end Table

section Runs
variable {K T R B : Type} [DecidableEq K] {table : Table K B} {codec : Bincode T}
  {capacity recordSize : Nat} {memory : TableMemory B} {keyOf : Nat → Option K}

/-- Stores in lockstep are filled and emptied together. -/
theorem Lockstep.completes (lockstep : Lockstep table codec capacity recordSize memory keyOf)
    (buckets : 0 < table.primaryKeys.totalBuckets) : table.Completes memory where
  insert key data index slots stored := by
    obtain ⟨order, node, represents, -⟩ := lockstep.nodes
    have room : memory.index.slots.header.count < capacity := by
      rw [← lockstep.parallel.count]
      obtain ⟨-, failed⟩ | ⟨-, -, failed⟩ | ⟨room, -⟩ := lockstep.slots.insert_cases data
      · cases failed.symm.trans stored
      · cases failed.symm.trans stored
      · exact room
    obtain ⟨new, slots', block, node', -, -, inserts, -⟩ :=
      represents.insert_ok buckets key index room
    exact ⟨block, inserts⟩
  remove key index found := by
    obtain ⟨order, node, represents, -⟩ := lockstep.nodes
    have search := represents.search_eq buckets key
    cases earliest : order.find? (fun i => (node i).key = key) with
    | none =>
      rw [earliest] at search
      simp [Index.get, search] at found
    | some i =>
      obtain ⟨rfl, pre, post, split, first⟩ := Index.find_key earliest
      obtain ⟨slots, block, node', -, -, removes, -⟩ := represents.remove_ok buckets split first
      exact ⟨block, removes⟩

variable [Inhabited K] [TableRecord T K] {layout : NodeLayout K B} {hasher : K → Nat} {semId : Nat}
  {data : Nat → Slot UInt8} {nodes : Nat → Slot B} {calls : List (Operation K T R × Reply T R)}

omit [Inhabited K] in
theorem Kept.completes
    (kept : Kept layout hasher semId codec capacity recordSize data nodes calls memory) :
    (Table.handle layout hasher semId capacity).Completes memory := by
  obtain ⟨lockstep, positive | ⟨rfl, rfl⟩⟩ := kept
  · exact lockstep.completes (totalBuckets_pos positive)
  · -- without slots nothing is stored and no key is found
    refine ⟨fun key bytes index slots stored => ?_, fun key index found => ?_⟩
    · rw [Slots.insert_full (Nat.le_refl 0)] at stored
      cases stored
    · cases found

/-- In every state that calls can reach, an insertion, an update or a removal that
returns an error has left the memory as it was, and the index insertion behind a
filled slot succeeds. -/
theorem failed_calls_write_nothing (layout : NodeLayout K B) (hasher : K → Nat) (semId : Nat)
    (codec : Bincode T) (capacity recordSize : Nat)
    (small : Slots.slotMetadataSize + recordSize < usizeModulus)
    (data : Nat → Slot UInt8) (nodes : Nat → Slot B)
    (calls : List (Operation K T R × Reply T R)) (memory : TableMemory B)
    (run : Run (CallStep (Table.handle layout hasher semId capacity) codec)
      (Table.createWithSize layout hasher semId capacity recordSize data nodes).2 calls memory)
    (serializer : Bincode T) (semop : Nat → Except Errno Unit) :
    (∀ (record : T) e after, (Table.handle layout hasher semId capacity).insert serializer semop
        memory record = some (.error e, after) → after = memory) ∧
    (∀ key (f : T → R × T) e after, (Table.handle layout hasher semId capacity).updateWithLock
        serializer semop memory key f = some (.error e, after) → after = memory) ∧
    (∀ key e after, (Table.handle layout hasher semId capacity).remove semop memory key =
        some (.error e, after) → after = memory) ∧
    ∀ key bytes index slots, memory.slots.insert bytes = (.ok index, slots) →
      ∃ block, (Table.handle layout hasher semId capacity).primaryKeys.insert memory.index key
        index = some (.ok (), block) := by
  have completes := (Kept.of_run small run).completes
  refine ⟨?_, ?_, ?_, completes.insert⟩
  · exact fun record e after failed => Table.insert_error completes failed
  · exact fun key f e after failed => Table.updateWithLock_error failed
  · exact fun key e after failed => Table.remove_error completes failed

end Runs

/-- The one slot is taken: another insertion is refused. -/
theorem failed_calls_write_nothing_sample :
    let memory := (Table.handle (.cell UInt8) UInt8.toNat 0 1).runAll .twoBytes oneSlot
      (rekeyed.map Prod.fst)
    ∀ after, (Table.handle (.cell UInt8) UInt8.toNat 0 1).insert .twoBytes (fun _ => .ok ()) memory
      ((5, 6) : UInt8 × UInt8) = some (.error (.tableFull 1 1), after) → after = memory := by
  intro memory after failed
  exact (failed_calls_write_nothing (.cell UInt8) UInt8.toNat 0 .twoBytes 1 2 (by decide) _ _
    rekeyed memory rekeyed_run .twoBytes (fun _ => .ok ())).1 (5, 6) _ after failed

end InMemoryTable
