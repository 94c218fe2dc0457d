import InMemoryTable.DeadInserters
import InMemoryTable.Reload

/-! A process that dies in `remove` between the slot and the index. `SEM_UNDO` gives back
the semaphore of the record, and the index still leads to the slot, which is free.
Whoever removes the key again puts the slot on the free list a second time. -/
namespace InMemoryTable
open Simulation

namespace Slots
variable {B : Type} {store slots : Slots B} {index : Nat} {data : List B}

theorem get_remove : (store.remove index).get index = [] := by
  rw [get, remove_self]
  rfl

/-- A slot that is removed twice follows itself on the free list. -/
theorem remove_twice (store : Slots B) (index : Nat) :
    ((store.remove index).remove index).header.firstFree = index ∧
      (((store.remove index).remove index).slot index).size = index ∧
      ((store.remove index).remove index).header.count =
        wrappingDecrement (wrappingDecrement store.header.count) ∧
      ((store.remove index).remove index).header.capacity = store.header.capacity ∧
      ((store.remove index).remove index).maxData = store.maxData :=
  ⟨rfl, by rw [remove_self]; rfl, rfl, rfl, rfl⟩

end Slots

namespace Table
variable {K T R B : Type} [DecidableEq K] [TableRecord T K] {table : Table K B}
  {codec : Bincode T} {capacity : Nat} {memory : TableMemory B} {entries : List (K × Nat)}

/-- An insertion of a new key does what the two stores do, whatever the slots hold. -/
theorem insert_of_refines (memory : TableMemory B)
    (refines : table.primaryKeys.Refines capacity memory.index entries)
    (serves : table.Serves capacity) {record : T} {bytes : List UInt8} {index : Nat}
    {slots : Slots UInt8} (absent : FifoMultimap.get entries (TableRecord.key record) = none)
    (encoded : codec.encode record = .ok bytes)
    (inserted : memory.slots.insert bytes = (.ok index, slots)) (room : entries.length < capacity) :
    ∃ block, table.insert codec (fun _ => .ok ()) memory record =
        some (.ok index, { memory with slots, index := block }) ∧
      table.primaryKeys.Refines capacity block (entries ++ [(TableRecord.key record, index)]) := by
  obtain ⟨block, linked, refined⟩ :=
    refines.insert_ok serves.buckets (TableRecord.key record) index room
  have position := refines.get_eq serves.buckets (TableRecord.key record)
  have locked := table.semaphores.lockTable_ok (fun _ => .ok ()) rfl
  refine ⟨block, ?_, refined⟩
  simp [Table.insert, position, absent, locked, encoded, inserted, linked]

omit [TableRecord T K] in
/-- A key that is not found is not in the index. -/
theorem absent_of_find (memory : TableMemory B)
    (refines : table.primaryKeys.Refines capacity memory.index entries)
    (serves : table.Serves capacity) {key : K}
    (missing : table.find codec memory key = some (.ok none)) : FifoMultimap.get entries key = none := by
  have position := refines.get_eq serves.buckets key
  cases found : FifoMultimap.get entries key with
  | none => rfl
  | some index =>
    rw [found] at position
    simp only [Table.find, position, bind, Option.bind_some, Option.some.injEq, Table.get] at missing
    split at missing
    · cases missing
    · cases decoded : codec.decode (memory.slots.get index) <;> rw [decoded] at missing <;>
        cases missing

/-- `remove` stopped between the slot and the index. -/
def removeStopped (memory : TableMemory B) (index : Nat) : TableMemory B :=
  { memory with slots := memory.slots.remove index }

/-- The memory after another process has removed the key, which its index then forgot. -/
def removedTwice (memory : TableMemory B) (index : Nat) (block : IndexBlock B) : TableMemory B :=
  { memory with slots := (memory.slots.remove index).remove index, index := block }

namespace Holds
variable {recordSize : Nat} {records : Records K T} {key : K} {index : Nat} {found : T}

omit [TableRecord T K] in
theorem find_removeStopped (holds : Holds table codec capacity recordSize memory records)
    (serves : table.Serves capacity) (lookup : records.lookup key = some (index, found)) :
    table.find codec (removeStopped memory index) key = some ((codec.decode []).map some) := by
  have position : table.primaryKeys.get memory.index key = some (some index) := by
    rw [holds.lookup_eq serves.buckets, lookup]
    rfl
  have bound : ¬ memory.header.capacity ≤ index := by
    have bound := (holds.stored lookup).1.1
    rw [holds.header_capacity, ← holds.slots.capacity]
    omega
  simp only [Table.find, position, bind, Option.bind_some, Table.get, ge_iff_le, removeStopped,
    bound, if_false, Slots.get_remove]

omit [TableRecord T K] in
/-- The other keys are found as before. -/
theorem find_other (holds : Holds table codec capacity recordSize memory records)
    (serves : table.Serves capacity) (lookup : records.lookup key = some (index, found))
    {other : K} (different : other ≠ key) :
    table.find codec (removeStopped memory index) other = table.find codec memory other := by
  have position := holds.lookup_eq serves.buckets other
  have position' : table.primaryKeys.get (removeStopped memory index).index other =
      some ((records.lookup other).map Prod.fst) := position
  rw [Table.find, Table.find, position, position']
  cases stored : records.lookup other with
  | none => rfl
  | some entry =>
    have apart : entry.1 ≠ index := by
      rintro rfl
      have own : records.lookup other = some (entry.1, entry.2) := stored
      exact different (holds.distinct own lookup)
    simp only [Option.map_some, bind, Option.bind_some, Table.get, removeStopped,
      Slots.get_congr (Slots.remove_other apart)]

omit [TableRecord T K] in
/-- Another process removes the key. -/
theorem remove_again (holds : Holds table codec capacity recordSize memory records)
    (serves : table.Serves capacity) (lookup : records.lookup key = some (index, found)) :
    ∃ entries block,
      table.remove (fun _ => .ok ()) (removeStopped memory index) key =
        some (.ok (), removedTwice memory index block) ∧
      table.primaryKeys.Refines capacity block entries ∧
      entries.length + 1 = memory.slots.count := by
  obtain ⟨entries, refines, nodup, agree⟩ := holds.indexed
  obtain ⟨block, unlinked, refined⟩ := refines.remove_ok serves.buckets key
  have stored : FifoMultimap.get entries key = some index := by rw [agree, lookup]; rfl
  have position : table.primaryKeys.get memory.index key = some (some index) := by
    rw [holds.lookup_eq serves.buckets, lookup]
    rfl
  refine ⟨_, block, ?_, refined, ?_⟩
  · simp [Table.remove, position, holds.lockRecord serves lookup, removeStopped, removedTwice,
      unlinked]
  · rw [FifoMultimap.length_remove stored, ← card_keys nodup agree]
    exact holds.count.symm

/-- The counter of an emptied table has gone below zero. -/
theorem insert_emptied (holds : Holds table codec capacity recordSize memory records)
    (serves : table.Serves capacity) (small : capacity < usizeModulus)
    (one : memory.slots.count = 1) {block : IndexBlock B}
    (refines : table.primaryKeys.Refines capacity block []) {record : T} {bytes : List UInt8}
    (encoded : codec.encode record = .ok bytes) :
    table.insert codec (fun _ => .ok ()) (removedTwice memory index block) record =
      some (.error (.tableFull (usizeModulus - 1) capacity), removedTwice memory index block) := by
  obtain ⟨_, _, count, limit, _⟩ := Slots.remove_twice memory.slots index
  have position := refines.get_eq serves.buckets (TableRecord.key record)
  have locked := table.semaphores.lockTable_ok (fun _ => .ok ()) rfl
  have below : ((memory.slots.remove index).remove index).header.count = usizeModulus - 1 := by
    rw [count, show memory.slots.header.count = 1 from one]
    rfl
  have refused : ((memory.slots.remove index).remove index).insert bytes = _ :=
    Slots.insert_full (by rw [below, limit, holds.slots.capacity]; omega)
  rw [below, limit, holds.slots.capacity] at refused
  simp [Table.insert, removedTwice, position, locked, encoded, refused]

/-- The free list of any other table leads to the slot again and again. -/
theorem insert_shares (holds : Holds table codec capacity recordSize memory records)
    (serves : table.Serves capacity) (more : 1 < memory.slots.count)
    (room : memory.slots.count < capacity) (lookup : records.lookup key = some (index, found))
    {block : IndexBlock B} {entries : List (K × Nat)}
    (refines : table.primaryKeys.Refines capacity block entries)
    (length : entries.length + 1 = memory.slots.count) {first second : T}
    (fits : Records.accept codec recordSize first = .ok ())
    (fits' : Records.accept codec recordSize second = .ok ())
    (different : (TableRecord.key first : K) ≠ TableRecord.key second)
    (absent : FifoMultimap.get entries (TableRecord.key first) = none)
    (absent' : FifoMultimap.get entries (TableRecord.key second) = none) :
    ∃ middle last,
      table.insert codec (fun _ => .ok ()) (removedTwice memory index block) first =
        some (.ok index, middle) ∧
      table.insert codec (fun _ => .ok ()) middle second = some (.ok index, last) ∧
      table.find codec last (TableRecord.key first) = some (.ok (some second)) := by
  obtain ⟨bytes, encoded, bounded⟩ := Records.accept_ok fits
  obtain ⟨bytes', encoded', bounded'⟩ := Records.accept_ok fits'
  obtain ⟨start, loop, count, limit, size⟩ := Slots.remove_twice memory.slots index
  rw [holds.slots.capacity] at limit
  rw [holds.slots.maxData] at size
  have decremented : ((memory.slots.remove index).remove index).header.count =
      memory.slots.count - 2 := by
    have some : memory.slots.header.count ≠ 0 := Nat.ne_zero_of_lt more
    have several : memory.slots.header.count - 1 ≠ 0 := Nat.sub_ne_zero_of_lt more
    rw [count, wrappingDecrement, wrappingDecrement, if_neg some, if_neg several]
    rfl
  -- the first insertion takes the slot, and the free list still starts there
  obtain ⟨slots, taken⟩ : ∃ slots, ((memory.slots.remove index).remove index).insert bytes =
      (.ok index, slots) := by
    refine ⟨_, Prod.ext ?_ rfl⟩
    rw [Slots.insert_first (by omega) (by omega), start]
  obtain ⟨_, header, _, _⟩ := Slots.insert_eq taken
  rw [loop] at header
  have again : slots.maxData = recordSize := by
    rw [← size, Slots.maxData, Slots.maxData, header]
  obtain ⟨block', inserted, refines'⟩ := insert_of_refines
    (removedTwice memory index block) refines serves absent encoded taken (by omega)
  obtain ⟨slots', taken'⟩ : ∃ slots', slots.insert bytes' = (.ok index, slots') := by
    refine ⟨_, Prod.ext ?_ rfl⟩
    rw [Slots.insert_first (by rw [header]; simp only; omega) (by omega), header]
  have missing : FifoMultimap.get (entries ++ [(TableRecord.key first, index)])
      (TableRecord.key second) = none := by
    rw [FifoMultimap.get_append_other different, absent']
  obtain ⟨block'', inserted', refines''⟩ := insert_of_refines
    { removedTwice memory index block with slots, index := block' } refines' serves
    missing encoded' taken' (by rw [List.length_append, List.length_singleton]; omega)
  refine ⟨_, _, inserted, inserted', ?_⟩
  have position := refines''.get_eq serves.buckets (TableRecord.key first)
  rw [FifoMultimap.get_append_other different.symm, FifoMultimap.get_append, absent,
    if_pos rfl, Option.none_or] at position
  have inside : ¬ memory.header.capacity ≤ index := by
    have bound := (holds.stored lookup).1.1
    rw [holds.header_capacity, ← holds.slots.capacity]
    omega
  simp only [Table.find, position, bind, Option.bind_some, Table.get, removedTwice, ge_iff_le,
    inside, if_false, (Slots.insert_popped taken').2, codec.decode_encode encoded', Except.map]

end Holds
end Table

section Runs
variable {K T R B : Type} [DecidableEq K] [TableRecord T K] [Inhabited K]

/-- After any calls a process dies in the removal of a key, behind the slot. A find of the
key then reads the empty slice, and the others are found as before. Once somebody else
removes the key, an emptied table refuses every insertion for good; any other one
stores two new records in one slot, and answers with the second when asked for the first. -/
theorem dead_remover (layout : NodeLayout K B) (hasher : K → Nat) (semId : Nat)
    (codec : Bincode T) (capacity recordSize : Nat) (positive : 1 ≤ capacity)
    (stride : Slots.slotMetadataSize + recordSize < usizeModulus) (small : capacity < usizeModulus)
    (data : Nat → Slot UInt8) (nodes : Nat → Slot B)
    (calls : List (PublicCall K T R)) :
    ∃ replies memory,
      execute ((Table.handle layout hasher semId capacity).publicCall codec)
          (Table.createWithSize layout hasher semId capacity recordSize data nodes).2 calls =
        some (replies, memory) ∧
      ∀ key index, (Table.handle layout hasher semId capacity).primaryKeys.get memory.index key =
          some (some index) →
        (Table.handle layout hasher semId capacity).find codec (Table.removeStopped memory index)
            key = some ((codec.decode []).map some) ∧
        (∀ other ≠ key, (Table.handle layout hasher semId capacity).find codec
            (Table.removeStopped memory index) other =
          (Table.handle layout hasher semId capacity).find codec memory other) ∧
        ∃ after, (Table.handle layout hasher semId capacity).remove (fun _ => .ok ())
            (Table.removeStopped memory index) key = some (.ok (), after) ∧
          (memory.slots.count = 1 → ∀ record bytes, codec.encode record = .ok bytes →
            (Table.handle layout hasher semId capacity).insert codec (fun _ => .ok ()) after record =
              some (.error (.tableFull (usizeModulus - 1) capacity), after)) ∧
          (1 < memory.slots.count → memory.slots.count < capacity → ∀ first second,
            Records.accept codec recordSize first = .ok () →
            Records.accept codec recordSize second = .ok () →
            (TableRecord.key first : K) ≠ TableRecord.key second →
            (Table.handle layout hasher semId capacity).find codec after (TableRecord.key first) =
              some (.ok none) →
            (Table.handle layout hasher semId capacity).find codec after (TableRecord.key second) =
              some (.ok none) →
            ∃ middle last,
              (Table.handle layout hasher semId capacity).insert codec (fun _ => .ok ()) after
                first = some (.ok index, middle) ∧
              (Table.handle layout hasher semId capacity).insert codec (fun _ => .ok ()) middle
                second = some (.ok index, last) ∧
              (Table.handle layout hasher semId capacity).find codec last (TableRecord.key first) =
                some (.ok (some second))) := by
  have serves := Table.handle_serves layout hasher semId positive
  obtain ⟨memory, executed, ⟨records, filed⟩, _⟩ :=
    Table.Shows.of_calls layout hasher semId codec capacity recordSize positive stride data nodes calls
  refine ⟨_, memory, executed, fun key index position => ?_⟩
  rw [filed.holds.lookup_eq serves.buckets] at position
  obtain ⟨⟨_, found⟩, lookup, rfl⟩ := Option.map_eq_some_iff.mp (Option.some.inj position)
  obtain ⟨entries, block, removed, refines, length⟩ := filed.holds.remove_again serves lookup
  refine ⟨filed.holds.find_removeStopped serves lookup,
    fun other different => filed.holds.find_other serves lookup different, _, removed,
    fun one record bytes encoded => ?_,
    fun more room first second fits fits' different absent absent' => ?_⟩
  · obtain rfl : entries = [] := List.length_eq_zero_iff.mp (by omega)
    exact filed.holds.insert_emptied serves small one refines encoded
  · exact filed.holds.insert_shares serves more room lookup refines length fits fits' different
      (Table.absent_of_find (Table.removedTwice memory _ block) refines serves absent)
      (Table.absent_of_find (Table.removedTwice memory _ block) refines serves absent')

end Runs

/-- Two records in a table for three. -/
def pairOfCalls : List (PublicCall UInt8 (UInt8 × UInt8) Unit) :=
  [.operation (.insert (1, 1)), .operation (.insert (2, 2))]

def threeSlots : Table UInt8 (Node UInt8) := .handle (.cell UInt8) UInt8.toNat 0 3

/-- The key is in slot 0 of two, and the keys 3 and 4 are missing after its second removal. -/
def removable (memory : TableMemory (Node UInt8)) : Bool :=
  threeSlots.primaryKeys.get memory.index 1 == some (some 0) && memory.slots.count == 2 &&
    match threeSlots.remove (fun _ => .ok ()) (Table.removeStopped memory 0) 1 with
    | some (_, after) =>
      [3, 4].all (fun key => threeSlots.primaryKeys.get after.index key == some none)
    | none => false

theorem dead_remover_sample :
    ∃ after middle last : TableMemory (Node UInt8),
      threeSlots.insert .twoBytes (fun _ => .ok ()) after (3, 3) = some (.ok 0, middle) ∧
      threeSlots.insert .twoBytes (fun _ => .ok ()) middle (4, 4) = some (.ok 0, last) ∧
      threeSlots.find .twoBytes last 3 = some (.ok (some (4, 4))) := by
  obtain ⟨replies, memory, executed, dies⟩ := dead_remover (.cell UInt8) UInt8.toNat 0 .twoBytes 3 2
    (by decide) (by decide) (by decide) (fun _ => ⟨.free, 0, []⟩) (fun _ => ⟨.free, 0, []⟩)
    pairOfCalls
  have checked : (execute (threeSlots.publicCall .twoBytes)
      (Table.createWithSize (.cell UInt8) UInt8.toNat 0 3 2 (fun _ => ⟨.free, 0, []⟩)
        (fun _ => ⟨.free, 0, []⟩)).2 pairOfCalls).map (fun outcome => removable outcome.2) =
      some true := by decide +kernel
  have executed : execute (threeSlots.publicCall .twoBytes) _ pairOfCalls = _ := executed
  rw [executed, Option.map_some, Option.some.injEq] at checked
  simp only [removable, Bool.and_eq_true, beq_iff_eq] at checked
  obtain ⟨⟨position, two⟩, missing⟩ := checked
  obtain ⟨_, _, after, removed, _, shares⟩ := dies 1 0 position
  have removed : threeSlots.remove (fun _ => .ok ()) (Table.removeStopped memory 0) 1 = _ := removed
  simp only [removed, List.all_cons, List.all_nil, Bool.and_true, Bool.and_eq_true, beq_iff_eq]
    at missing
  obtain ⟨middle, last, stored, stored', found⟩ := shares (two.symm ▸ by decide)
    (two.symm ▸ by decide) (3, 3) (4, 4) rfl rfl (by decide)
    (by simp only [Table.find]; exact congrArg (Option.bind · _) missing.1)
    (by simp only [Table.find]; exact congrArg (Option.bind · _) missing.2)
  exact ⟨after, middle, last, stored, stored', found⟩

end InMemoryTable
