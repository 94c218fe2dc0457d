import InMemoryTable.ReachedRecords

/-! An iteration while nothing else happens: `iter()` and `keys()` yield every record
and every key once, and `find` answers for exactly these keys with these records. -/
namespace InMemoryTable
open Transition

namespace Table
variable {K T B : Type} [DecidableEq K] {table : Table K B} {codec : Bincode T}
  {capacity recordSize : Nat} {memory : TableMemory B} {records : Records K T}

/-- The record behind a node is the one that is stored under its key. -/
theorem Holds.under_node (holds : Holds table codec capacity recordSize memory records) {i : Nat}
    {node : Node K} (used : memory.index.slots.Occupied i)
    (read : table.primaryKeys.readNode memory.index i = some node) :
    ∃ record, records.lookup node.key = some (node.position, record) := by
  obtain ⟨entries, ⟨order, node', represents, rfl⟩, nodup, agree⟩ := holds.indexed
  have member := (represents.live i).mpr used
  obtain rfl := Option.some.inj ((represents.read i member).symm.trans read)
  have entry : (node' i).position ∈
      FifoMultimap.queue (order.map (Index.entryOf node')) (node' i).key :=
    FifoMultimap.mem_queue.mpr (List.mem_map_of_mem member)
  rw [FifoMultimap.queue_of_nodup nodup, agree, Option.mem_toList] at entry
  obtain ⟨⟨position, record⟩, lookup, rfl⟩ := Option.map_eq_some_iff.mp entry
  exact ⟨record, lookup⟩

/-- Every key of the map has a node. -/
theorem Holds.node_of_key (holds : Holds table codec capacity recordSize memory records) {key : K}
    (present : (records.lookup key).isSome) :
    ∃ i node, memory.index.slots.Occupied i ∧
      table.primaryKeys.readNode memory.index i = some node ∧ node.key = key := by
  obtain ⟨entries, ⟨order, node, represents, rfl⟩, _, agree⟩ := holds.indexed
  obtain ⟨entry, lookup⟩ := Option.isSome_iff_exists.mp present
  have found := agree key
  rw [lookup, Option.map_some] at found
  obtain ⟨i, member, same⟩ := List.mem_map.mp (FifoMultimap.mem_of_get found)
  exact ⟨i, node i, (represents.live i).mp member, represents.read i member, congrArg Prod.fst same⟩

section Slots
variable {order : List Nat} {node : Nat → Node K}

/-- The node in slot `i` belongs to the record in slot `i`. -/
theorem Holds.under_slot (holds : Holds table codec capacity recordSize memory records)
    (represents : table.primaryKeys.Represents capacity memory.index order node)
    (own : ∀ i ∈ order, (node i).position = i) {i : Nat} (used : memory.index.slots.Occupied i) :
    ∃ record, records.lookup (node i).key = some (i, record) := by
  have member := (represents.live i).mpr used
  obtain ⟨record, lookup⟩ := holds.under_node used (represents.read i member)
  rw [own i member] at lookup
  exact ⟨record, lookup⟩

theorem Holds.keys_nodup (holds : Holds table codec capacity recordSize memory records)
    (represents : table.primaryKeys.Represents capacity memory.index order node)
    (own : ∀ i ∈ order, (node i).position = i) :
    (memory.index.slots.occupiedSlots.map (fun i => (node i).key)).Nodup := by
  refine List.Nodup.map_on ?_ memory.index.slots.occupiedSlots_nodup
  intro i member j member' same
  obtain ⟨record, first⟩ := holds.under_slot represents own (Slots.mem_occupiedSlots.mp member)
  obtain ⟨record', second⟩ := holds.under_slot represents own (Slots.mem_occupiedSlots.mp member')
  rw [same, second] at first
  cases first
  rfl

theorem Holds.mem_keys (holds : Holds table codec capacity recordSize memory records)
    (represents : table.primaryKeys.Represents capacity memory.index order node)
    (own : ∀ i ∈ order, (node i).position = i) {key : K} :
    key ∈ memory.index.slots.occupiedSlots.map (fun i => (node i).key) ↔
      (records.lookup key).isSome := by
  constructor
  · intro yielded
    obtain ⟨i, member, rfl⟩ := List.mem_map.mp yielded
    obtain ⟨record, lookup⟩ := holds.under_slot represents own (Slots.mem_occupiedSlots.mp member)
    exact Option.isSome_of_eq_some lookup
  · intro present
    obtain ⟨i, _, used, read, rfl⟩ := holds.node_of_key present
    obtain rfl := Option.some.inj
      ((represents.read i ((represents.live i).mpr used)).symm.trans read)
    exact List.mem_map_of_mem (Slots.mem_occupiedSlots.mpr used)

/-- The records of the slots in use are those under the keys of the nodes there. -/
theorem Holds.records_of_keys (holds : Holds table codec capacity recordSize memory records)
    (represents : table.primaryKeys.Represents capacity memory.index order node)
    (own : ∀ i ∈ order, (node i).position = i) {stored : List T}
    (decoded : List.Forall₂ (fun i record => codec.decode (memory.slots.get i) = .ok record)
      memory.index.slots.occupiedSlots stored) :
    List.Forall₂ (fun key record => (records.lookup key).map Prod.snd = some record)
      (memory.index.slots.occupiedSlots.map (fun i => (node i).key)) stored := by
  have used : ∀ i ∈ memory.index.slots.occupiedSlots, memory.index.slots.Occupied i :=
    fun i member => Slots.mem_occupiedSlots.mp member
  refine List.forall₂_map_left_iff.mpr (((List.forall₂_and_left
    (p := memory.index.slots.Occupied) _ _).mpr ⟨used, decoded⟩).imp ?_)
  rintro i record ⟨member, decodes⟩
  obtain ⟨record', lookup⟩ := holds.under_slot represents own member
  cases (holds.stored lookup).2.symm.trans decodes
  rw [lookup]
  rfl

end Slots
end Table

section Runs
variable {K T R B : Type} [DecidableEq K] [Inhabited K] [TableRecord T K]

/-- In every state that calls can reach, `iter()` yields the records of the slots in
use and `keys()` the keys of the nodes in use, in slot order, then `None` for good;
every call returns and looks at no slot behind the table; and the keys are those that
`find` knows, each with the record in the same place. -/
theorem iteration_complete (layout : NodeLayout K B) (hasher : K → Nat) (semId : Nat)
    (codec : Bincode T) (capacity recordSize : Nat)
    (small : Slots.slotMetadataSize + recordSize < usizeModulus)
    (data : Nat → Slot UInt8) (nodes : Nat → Slot B)
    (calls : List (Operation K T R × Reply T R)) (memory : TableMemory B)
    (run : Run (CallStep (Table.handle layout hasher semId capacity) codec)
      (Table.createWithSize layout hasher semId capacity recordSize data nodes).2 calls memory) :
    let table := Table.handle layout hasher semId capacity
    ∃ records keys,
      (∀ rounds, ∃ iterator outcome,
        Iteration.answers (TableIterator.next codec memory.slots capacity) rounds Slots.iter =
          some ((records.map some ++ List.replicate rounds none).take rounds, iterator) ∧
        memory.slots.next capacity iterator = some outcome ∧
        ∀ i ∈ outcome.examined, i < capacity) ∧
      (∀ rounds, ∃ iterator outcome,
        Iteration.answers (IndexIterator.next layout memory.index.slots capacity) rounds Slots.iter =
          some ((keys.map some ++ List.replicate rounds none).take rounds, iterator) ∧
        memory.index.slots.next capacity iterator = some outcome ∧
        ∀ i ∈ outcome.examined, i < capacity) ∧
      records.length = memory.slots.count ∧ keys.length = memory.index.slots.count ∧
      List.Forall₂ (fun i record => codec.decode (memory.slots.get i) = .ok record)
        memory.slots.occupiedSlots records ∧
      List.Forall₂ (fun i key => (table.primaryKeys.readNode memory.index i).map Node.key = some key)
        memory.index.slots.occupiedSlots keys ∧
      keys.Nodup ∧
      List.Forall₂ (fun key record => table.find codec memory key = some (.ok (some record)))
        keys records ∧
      ∀ key, key ∈ keys ↔ ∃ record, table.find codec memory key = some (.ok (some record)) := by
  intro table
  have kept := Kept.of_run small run
  obtain ⟨stored, holds, finds⟩ := Table.Holds.found_of_run small run
  obtain ⟨order, node, represents, filed⟩ := kept.1.nodes
  have own : ∀ i ∈ order, (node i).position = i := fun i member => (filed i member).1
  have read : ∀ i, memory.index.slots.Occupied i →
      table.primaryKeys.readNode memory.index i = some (node i) := fun i used =>
    represents.read i ((represents.live i).mpr used)
  obtain ⟨records, decoded, records_answered⟩ :=
    kept.1.slots.wellFormed.answers_slots (Table.records_read kept.1.decodable)
  obtain ⟨keys, named, keys_answered⟩ :=
    represents.slots.wellFormed.answers_slots (Table.keys_read read)
  rw [kept.1.slots.capacity] at records_answered
  rw [represents.slots.capacity] at keys_answered
  obtain rfl : memory.index.slots.occupiedSlots.map (fun i => (node i).key) = keys :=
    List.forall₂_eq_eq_eq ▸ List.forall₂_map_left_iff.mpr named
  rw [← kept.1.parallel.occupiedSlots_eq] at decoded
  have paired := holds.records_of_keys represents own decoded
  rw [kept.1.parallel.occupiedSlots_eq] at decoded
  refine ⟨records, _, records_answered, keys_answered, ?_, ?_, decoded, ?_,
    holds.keys_nodup represents own, ?_, ?_⟩
  · rw [← decoded.length_eq, ← kept.1.slots.wellFormed.count_eq, Slots.count]
  · rw [← named.length_eq, ← represents.slots.wellFormed.count_eq, Slots.count]
  · refine List.forall₂_map_right_iff.mpr (List.forall₂_same.mpr (fun i member => ?_))
    rw [read i (Slots.mem_occupiedSlots.mp member)]
    rfl
  · refine paired.imp ?_
    intro key record lookup
    rw [finds, lookup]
  · intro key
    rw [holds.mem_keys represents own, finds]
    constructor
    · intro present
      obtain ⟨entry, lookup⟩ := Option.isSome_iff_exists.mp present
      exact ⟨entry.2, by rw [lookup]; rfl⟩
    · rintro ⟨record, found⟩
      obtain ⟨entry, lookup, _⟩ := Option.map_eq_some_iff.mp (Except.ok.inj (Option.some.inj found))
      exact Option.isSome_of_eq_some lookup

end Runs

/-- One record of the key 3, stored under the key 1. -/
theorem iteration_complete_sample :
    ∃ records keys, records.length = 1 ∧ keys.length = 1 ∧ (1 : UInt8) ∈ keys ∧
      (∀ rounds, ∃ iterator,
        Iteration.answers (TableIterator.next .twoBytes rekeyedMemory.slots 1) rounds Slots.iter =
          some ((records.map some ++ List.replicate rounds none).take rounds, iterator)) ∧
      List.Forall₂ (fun key record => (Table.handle (.cell UInt8) UInt8.toNat 0 1).find .twoBytes
        rekeyedMemory key = some (.ok (some record))) keys records := by
  obtain ⟨records, keys, iterated, _, count, length, _, _, _, answered, found⟩ :=
    iteration_complete (.cell UInt8) UInt8.toNat 0 .twoBytes 1 2 (by decide) _ _ rekeyed rekeyedMemory
      rekeyed_run
  refine ⟨records, keys, count, length, (found 1).mpr ⟨(3, 4), rfl⟩, fun rounds => ?_, answered⟩
  obtain ⟨iterator, _, same, _⟩ := iterated rounds
  exact ⟨iterator, same⟩

end InMemoryTable
