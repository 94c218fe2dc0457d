import InMemoryTable.Library.Transition
import InMemoryTable.TableInvariant

/-! The record slots and the node slots are two stores with free lists of their
own. Every call of the table issues the same allocations and releases to both,
whatever its result, and so they stay in lockstep. -/
namespace InMemoryTable
namespace Slots
variable {A B : Type} {records records' : Slots A} {nodes nodes' : Slots B} {i : Nat}

/-- The same counter, the same slots in use and the same free list. -/
structure Parallel (records : Slots A) (nodes : Slots B) : Prop where
  capacity : records.header.capacity = nodes.header.capacity
  count : records.header.count = nodes.header.count
  firstFree : records.header.firstFree = nodes.header.firstFree
  state : ∀ i < records.header.capacity, (records.slot i).state = (nodes.slot i).state
  link : ∀ i < records.header.capacity, (records.slot i).state = .free →
    (records.slot i).size = (nodes.slot i).size

theorem insert_eq {data : List A} (inserted : records.insert data = (.ok i, records')) :
    i = records.header.firstFree ∧ records'.header = { records.header with
      firstFree := (records.slot i).size, count := records.header.count + 1 } ∧
    (records'.slot i).state = .occupied ∧ ∀ j ≠ i, records'.slot j = records.slot j := by
  simp only [insert] at inserted
  split at inserted
  · cases inserted
  · split at inserted
    · cases inserted
    · cases inserted
      exact ⟨rfl, rfl, by simp [setRecordData_self], fun j different => setRecordData_other different⟩

theorem new_parallel (data : Nat → Slot A) (memory : Nat → Slot B) (capacity recordSize size : Nat) :
    Parallel (new data capacity recordSize) (new memory capacity size) where
  capacity := by simp [new_header, SlotsHeader.new]
  count := by simp [new_header, SlotsHeader.new]
  firstFree := by simp [new_header, SlotsHeader.new]
  state i bound := by
    have bound : i < capacity := by simpa [new_header, SlotsHeader.new] using bound
    rw [new_slot _ _ _ _ bound, new_slot _ _ _ _ bound]
  link i bound _ := by
    have bound : i < capacity := by simpa [new_header, SlotsHeader.new] using bound
    rw [new_slot _ _ _ _ bound, new_slot _ _ _ _ bound]

namespace Parallel

theorem occupied_iff (parallel : Parallel records nodes) :
    records.Occupied i ↔ nodes.Occupied i := by
  unfold Occupied
  rw [← parallel.capacity]
  exact and_congr_right (fun bound => by rw [parallel.state i bound])

theorem occupiedSlots_eq (parallel : Parallel records nodes) :
    nodes.occupiedSlots = records.occupiedSlots := by
  rw [occupiedSlots, occupiedSlots, parallel.capacity]
  exact List.filter_congr (fun i _ => decide_eq_decide.mpr parallel.occupied_iff.symm)

/-- Both stores hand out the same slot. -/
theorem insert (parallel : Parallel records nodes) {data : List A} {node : List B} {j : Nat}
    (bound : i < records.header.capacity) (unused : (records.slot i).state = .free)
    (first : records.insert data = (.ok i, records'))
    (second : nodes.insert node = (.ok j, nodes')) : i = j ∧ Parallel records' nodes' := by
  obtain ⟨start, header, used, others⟩ := insert_eq first
  obtain ⟨start', header', used', others'⟩ := insert_eq second
  have same : i = j := by rw [start, start', parallel.firstFree]
  subst same
  refine ⟨rfl, ?_, ?_, ?_, ?_, ?_⟩
  · rw [header, header', parallel.capacity]
  · rw [header, header', parallel.count]
  · rw [header, header']
    exact parallel.link i bound unused
  · intro k inside
    rw [header] at inside
    by_cases mine : k = i
    · rw [mine, used, used']
    · rw [others k mine, others' k mine, parallel.state k inside]
  · intro k inside free
    rw [header] at inside
    by_cases mine : k = i
    · rw [mine, used] at free
      contradiction
    · rw [others k mine] at free ⊢
      rw [others' k mine, parallel.link k inside free]

theorem remove (parallel : Parallel records nodes) (i : Nat) :
    Parallel (records.remove i) (nodes.remove i) := by
  refine ⟨parallel.capacity, ?_, rfl, ?_, ?_⟩
  · exact congrArg wrappingDecrement parallel.count
  · intro k inside
    by_cases mine : k = i
    · rw [mine, remove_self, remove_self]
    · rw [remove_other mine, remove_other mine]
      exact parallel.state k inside
  · intro k inside free
    by_cases mine : k = i
    · rw [mine, remove_self, remove_self, parallel.firstFree]
    · rw [remove_other mine] at free ⊢
      rw [remove_other mine]
      exact parallel.link k inside free

theorem left (parallel : Parallel records nodes) (same : SameFree records records') :
    Parallel records' nodes where
  capacity := by rw [same.header, parallel.capacity]
  count := by rw [same.header, parallel.count]
  firstFree := by rw [same.header, parallel.firstFree]
  state i bound := by
    rw [same.header] at bound
    rw [same.state, parallel.state i bound]
  link i bound unused := by
    rw [same.header] at bound
    rw [same.state] at unused
    rw [same.link i unused, parallel.link i bound unused]

theorem right (parallel : Parallel records nodes) (same : SameFree nodes nodes') :
    Parallel records nodes' where
  capacity := by rw [same.header, parallel.capacity]
  count := by rw [same.header, parallel.count]
  firstFree := by rw [same.header, parallel.firstFree]
  state i bound := by rw [same.state, parallel.state i bound]
  link i bound unused := by
    rw [parallel.link i bound unused, same.link i (parallel.state i bound ▸ unused)]

end Parallel
end Slots

/-- The keys under which the slots were filled last, after one more call. -/
def Operation.noteInsertion {K T R : Type} [TableRecord T K] (operation : Operation K T R)
    (reply : Reply T R) (keyOf : Nat → Option K) : Nat → Option K :=
  match operation, reply with
  | .insert record, .inserted (.ok index) =>
    Function.update keyOf index (some (TableRecord.key record))
  | _, _ => keyOf

/-- Both stores are in lockstep; node `i` belongs to record `i` and carries the
key under which the record was inserted. -/
structure Lockstep {K T B : Type} (table : Table K B) (codec : Bincode T) (capacity recordSize : Nat)
    (memory : TableMemory B) (keyOf : Nat → Option K) : Prop where
  slots : Slots.Sized capacity recordSize memory.slots
  parallel : Slots.Parallel memory.slots memory.index.slots
  nodes : ∃ order node, table.primaryKeys.Represents capacity memory.index order node ∧
    ∀ i ∈ order, (node i).position = i ∧ keyOf i = some (node i).key
  decodable : ∀ i, memory.slots.Occupied i → ∃ record,
    codec.decode (memory.slots.get i) = .ok record

namespace Lockstep
variable {K T R B : Type} {table : Table K B} {codec : Bincode T} {capacity recordSize : Nat}
  {memory : TableMemory B} {keyOf : Nat → Option K}

theorem of_create [Nonempty K] (layout : NodeLayout K B) (hasher : K → Nat) (semId : Nat)
    (data : Nat → Slot UInt8) (nodes : Nat → Slot B) (keyOf : Nat → Option K)
    (small : Slots.slotMetadataSize + recordSize < usizeModulus) :
    Lockstep (Table.handle layout hasher semId capacity) codec capacity recordSize
      (Table.createWithSize layout hasher semId capacity recordSize data nodes).2 keyOf := by
  have sized := Slots.new_sized data capacity small
  obtain ⟨order, node, represents, empty⟩ := Index.newBlock_refines
    (Table.handle layout hasher semId capacity).primaryKeys capacity nodes
  cases order with
  | cons i rest => cases empty
  | nil =>
    refine ⟨sized, Slots.new_parallel data nodes capacity recordSize _,
      ⟨[], node, represents, by simp⟩, ?_⟩
    rintro i ⟨bound, used⟩
    change i < (Slots.new data capacity recordSize).header.capacity at bound
    rw [sized.capacity] at bound
    change ((Slots.new data capacity recordSize).slot i).state = _ at used
    rw [Slots.new_slot _ _ _ _ bound] at used
    contradiction

/-- Replacing a record in place leaves both free lists alone. -/
theorem replace (lockstep : Lockstep table codec capacity recordSize memory keyOf) {index : Nat}
    {record : T} {bytes : List UInt8} {slots : Slots UInt8} (used : memory.slots.Occupied index)
    (encoded : codec.encode record = .ok bytes)
    (updated : Slots.Updated memory.slots index bytes slots) :
    Lockstep table codec capacity recordSize { memory with slots } keyOf where
  slots := updated.sized lockstep.slots
  parallel := lockstep.parallel.left (updated.sameFree used)
  nodes := lockstep.nodes
  decodable i occupied := by
    by_cases same : i = index
    · subst same
      exact ⟨record, by simp only [updated.stored, codec.decode_encode encoded]⟩
    · rw [Slots.get_congr (updated.others i same)]
      exact lockstep.decodable i ((updated.occupied_iff used).mp occupied)

theorem update (lockstep : Lockstep table codec capacity recordSize memory keyOf) {index : Nat}
    (used : memory.slots.Occupied index) (record : T) :
    Lockstep table codec capacity recordSize (Table.update codec memory index record).2 keyOf := by
  obtain ⟨e, _, same⟩ | ⟨_, bytes, slots, same, encoded, updated⟩ :=
    Table.update_cases lockstep.slots used record
  · rwa [same]
  · rw [same]
    exact lockstep.replace used encoded updated

section Calls
variable [DecidableEq K] (semop : Nat → Except Errno Unit)

/-- The index names a slot in use, or none. -/
theorem get_cases (lockstep : Lockstep table codec capacity recordSize memory keyOf)
    (buckets : 0 < table.primaryKeys.totalBuckets) (key : K) :
    table.primaryKeys.get memory.index key = some none ∨
    ∃ index, table.primaryKeys.get memory.index key = some (some index) ∧
      memory.slots.Occupied index := by
  obtain ⟨order, node, represents, own⟩ := lockstep.nodes
  have search := represents.search_eq buckets key
  cases found : order.find? (fun i => (node i).key = key) with
  | none =>
    rw [found] at search
    exact .inl (by simp [Index.get, search])
  | some i =>
    rw [found] at search
    have member := List.mem_of_find?_eq_some found
    refine .inr ⟨i, by simp [Index.get, search, (own i member).1], ?_⟩
    exact lockstep.parallel.occupied_iff.mpr ((represents.live i).mp member)

theorem updateWithLock (lockstep : Lockstep table codec capacity recordSize memory keyOf)
    (buckets : 0 < table.primaryKeys.totalBuckets) (key : K) (f : T → R × T) :
    ∃ result after, table.updateWithLock codec semop memory key f = some (result, after) ∧
      Lockstep table codec capacity recordSize after keyOf := by
  obtain absent | ⟨index, found, used⟩ := lockstep.get_cases buckets key
  · exact ⟨.ok none, memory, by simp [Table.updateWithLock, absent], lockstep⟩
  simp only [Table.updateWithLock, found, bind, Option.bind_some]
  split
  · exact ⟨_, memory, rfl, lockstep⟩
  · split
    · exact ⟨_, memory, rfl, lockstep⟩
    · exact ⟨_, memory, rfl, lockstep⟩
    · rename_i record _
      have kept := lockstep.update used (f record).2
      split <;> rename_i same <;> rw [same] at kept <;> exact ⟨_, _, rfl, kept⟩

theorem updateMany (lockstep : Lockstep table codec capacity recordSize memory keyOf)
    (buckets : 0 < table.primaryKeys.totalBuckets) (updater : T → T) (keys : List K) (count : Nat) :
    ∃ result after, table.updateMany codec semop updater memory keys count = some (result, after) ∧
      Lockstep table codec capacity recordSize after keyOf := by
  induction keys generalizing memory count with
  | nil => exact ⟨_, memory, rfl, lockstep⟩
  | cons key keys ih =>
    obtain absent | ⟨index, found, used⟩ := lockstep.get_cases buckets key
    · simpa only [Table.updateMany, absent, bind, Option.bind_some] using ih lockstep count
    simp only [Table.updateMany, found, bind, Option.bind_some]
    split
    · exact ⟨_, memory, rfl, lockstep⟩
    · split
      · exact ⟨_, memory, rfl, lockstep⟩
      · exact ih lockstep count
      · rename_i record _
        have kept := lockstep.update used (updater record)
        split <;> rename_i same <;> rw [same] at kept
        · exact ⟨_, _, rfl, kept⟩
        · exact ih kept (count + 1)

theorem remove (lockstep : Lockstep table codec capacity recordSize memory keyOf)
    (buckets : 0 < table.primaryKeys.totalBuckets) (key : K) :
    ∃ result after, table.remove semop memory key = some (result, after) ∧
      Lockstep table codec capacity recordSize after keyOf := by
  obtain ⟨order, node, represents, own⟩ := lockstep.nodes
  have search := represents.search_eq buckets key
  cases earliest : order.find? (fun i => (node i).key = key) with
  | none =>
    rw [earliest] at search
    exact ⟨.ok (), memory, by simp [Table.remove, Index.get, search], lockstep⟩
  | some i =>
    rw [earliest] at search
    have member := List.mem_of_find?_eq_some earliest
    have found : table.primaryKeys.get memory.index key = some (some i) := by
      simp [Index.get, search, (own i member).1]
    simp only [Table.remove, found, bind, Option.bind_some]
    split
    · exact ⟨_, memory, rfl, lockstep⟩
    · obtain ⟨rfl, pre, post, split, first⟩ := Index.find_key earliest
      obtain ⟨slots, block, node', same, freed, removes, represented, entries⟩ :=
        represents.remove_ok buckets split first
      have used := lockstep.parallel.occupied_iff.mpr ((represents.live i).mp member)
      have removed := lockstep.slots.wellFormed.remove_ok used
      refine ⟨.ok (), { memory with slots := memory.slots.remove i, index := block },
        by simp only [removes, Option.bind_some], removed.sized lockstep.slots, ?_,
        ⟨pre ++ post, node', represented, ?_⟩, ?_⟩
      · rw [freed]
        exact (lockstep.parallel.right same).remove i
      · intro j kept
        have before := own j (by rw [split]; simp at kept ⊢; tauto)
        obtain ⟨sameKey, samePosition⟩ := Prod.mk.injEq .. ▸ entries j
        exact ⟨samePosition.trans before.1, before.2.trans (congrArg some sameKey.symm)⟩
      · intro j occupied
        obtain ⟨before, different⟩ := removed.occupied_iff.mp occupied
        rw [Slots.get_congr (removed.others j different)]
        exact lockstep.decodable j before

theorem insert [TableRecord T K]
    (lockstep : Lockstep table codec capacity recordSize memory keyOf)
    (buckets : 0 < table.primaryKeys.totalBuckets) (record : T) :
    ∃ result after, table.insert codec semop memory record = some (result, after) ∧
      Lockstep table codec capacity recordSize after
        ((Operation.insert record : Operation K T R).noteInsertion (.inserted result) keyOf) := by
  obtain absent | ⟨index, found, _⟩ := lockstep.get_cases buckets (TableRecord.key record)
  swap
  · exact ⟨.error .recordDuplicated, memory, by simp [Table.insert, found], lockstep⟩
  simp only [Table.insert, absent, bind, Option.bind_some]
  split
  · exact ⟨_, memory, rfl, lockstep⟩
  · split
    · exact ⟨_, memory, rfl, lockstep⟩
    · rename_i bytes encoded
      obtain ⟨_, same⟩ | ⟨_, _, same⟩ | ⟨room, _, index, slots, same, inserted⟩ :=
        lockstep.slots.insert_cases bytes
      · exact ⟨.error (.tableFull memory.slots.header.count capacity), memory, by simp only [same],
          lockstep⟩
      · exact ⟨.error (.recordSizeTooBig bytes.length recordSize), memory, by simp only [same],
          lockstep⟩
      · -- the node store has room because the record store had
        obtain ⟨order, node, represents, own⟩ := lockstep.nodes
        obtain ⟨new, written, block, node', stored, kept, inserts, represented, others, fresh⟩ :=
          represents.insert_ok buckets (TableRecord.key record) index
            (by rwa [← lockstep.parallel.count])
        obtain ⟨rfl, parallel⟩ :=
          lockstep.parallel.insert inserted.wasFree.1 inserted.wasFree.2 same stored
        obtain ⟨freshKey, freshPosition⟩ := Prod.mk.injEq .. ▸ fresh
        refine ⟨.ok index, { memory with slots, index := block }, by simp [same, inserts],
          inserted.sized lockstep.slots, parallel.right kept,
          ⟨order ++ [index], node', represented, ?_⟩, ?_⟩
        · intro j member
          simp only [Operation.noteInsertion]
          rcases List.mem_append.mp member with old | new
          · have different : j ≠ index := by
              rintro rfl
              exact (lockstep.parallel.occupied_iff.mpr ((represents.live j).mp old)).not_free
                inserted.wasFree
            obtain ⟨sameKey, samePosition⟩ := Prod.mk.injEq .. ▸ others j old
            rw [Function.update_of_ne different, sameKey, samePosition]
            exact own j old
          · rw [List.mem_singleton.mp new, Function.update_self, freshKey, freshPosition]
            exact ⟨rfl, rfl⟩
        · intro j occupied
          by_cases mine : j = index
          · subst mine
            exact ⟨record, by simp only [inserted.stored, codec.decode_encode encoded]⟩
          · rw [Slots.get_congr (inserted.others j mine)]
            exact lockstep.decodable j ((inserted.occupied_iff.mp occupied).resolve_right mine)

/-- Every call returns and keeps the stores in lockstep, whatever the outcome of
its semaphore operations. -/
theorem run [TableRecord T K]
    (lockstep : Lockstep table codec capacity recordSize memory keyOf)
    (buckets : 0 < table.primaryKeys.totalBuckets) (operation : Operation K T R) :
    ∃ reply after, table.run codec semop memory operation = some (reply, after) ∧
      Lockstep table codec capacity recordSize after (operation.noteInsertion reply keyOf) := by
  cases operation with
  | insert record =>
    obtain ⟨result, after, returned, kept⟩ := lockstep.insert (R := R) semop buckets record
    exact ⟨_, after, by simp only [Table.run, returned]; rfl, kept⟩
  | find key =>
    obtain absent | ⟨index, found, _⟩ := lockstep.get_cases buckets key
    · exact ⟨_, memory, by simp only [Table.run, Table.find, absent]; rfl, lockstep⟩
    · exact ⟨_, memory, by simp only [Table.run, Table.find, found]; rfl, lockstep⟩
  | updateWithLock key f =>
    obtain ⟨result, after, returned, kept⟩ := lockstep.updateWithLock semop buckets key f
    exact ⟨_, after, by simp only [Table.run, returned]; rfl, kept⟩
  | remove key =>
    obtain ⟨result, after, returned, kept⟩ := lockstep.remove semop buckets key
    exact ⟨_, after, by simp only [Table.run, returned]; rfl, kept⟩
  | updateMany keys updater =>
    obtain ⟨result, after, returned, kept⟩ := lockstep.updateMany semop buckets updater keys 0
    exact ⟨_, after, by simp only [Table.run, returned]; rfl, kept⟩

end Calls
end Lockstep
end InMemoryTable
