import InMemoryTable.RawIndexRun
import InMemoryTable.RawTable

/-! Every sequence of public calls on the bytes of a new table, through handles opened
at any time, answers as the registry does and changes no byte outside of the blocks.
The bytes show a table of nodes, and each call does to it what the model of the call
does; the lockstep of the shown stores tells which addresses the calls follow. -/
namespace InMemoryTable
open ByteMemory Simulation

theorem Slots.Sized.insert_lt {B : Type} {store slots : Slots B} {capacity dataSize index : Nat}
    {data : List B} (sized : Sized capacity dataSize store)
    (inserted : store.insert data = (.ok index, slots)) : index < capacity := by
  obtain ⟨_, failed⟩ | ⟨_, _, failed⟩ | ⟨_, _, _, _, ok, done⟩ := sized.insert_cases data
  · cases inserted.symm.trans failed
  · cases inserted.symm.trans failed
  · cases inserted.symm.trans ok
    exact sized.capacity ▸ done.wasFree.1

theorem Lockstep.inside {K T B : Type} {table : Table K B} {codec : Bincode T}
    {capacity recordSize index : Nat} {memory : TableMemory B} {keyOf : Nat → Option K}
    (lockstep : Lockstep table codec capacity recordSize memory keyOf)
    (used : memory.slots.Occupied index) : index < capacity :=
  lockstep.slots.capacity ▸ used.1

theorem TableHeader.ofBytes_of_frame {layout : TableHeaderLayout} {before after : ByteMemory}
    {low high : Nat} (changed : Frame low high before after) (behind : tableHeaderSize ≤ low) :
    ofBytes layout after = ofBytes layout before := by
  have magic := layout.magicInside
  have capacity := layout.capacityInside
  rw [ofBytes, changed.read (.inl (by omega)), changed.readWord (.inl (by omega))]
  rfl

theorem TableHeader.write_frame (layout : TableHeaderLayout) (memory : ByteMemory) (capacity : Nat) :
    Frame 0 tableHeaderSize memory (write layout memory (.new capacity)) :=
  (Frame.write (Nat.zero_le _) layout.magicInside).trans
    (.writeWord (Nat.zero_le _) layout.capacityInside)

theorem TableHeader.ofBytes_write (layout : TableHeaderLayout) (memory : ByteMemory)
    {capacity : Nat} (small : capacity < usizeModulus) :
    ofBytes layout (write layout memory (.new capacity)) = .new capacity := by
  have apart := layout.apart
  have magic : (memory.write layout.magic (TableHeader.new capacity).magic).read layout.magic
      MAGIC.length = MAGIC := read_write_self
  have kept : (write layout memory (.new capacity)).read layout.magic MAGIC.length =
      (memory.write layout.magic (TableHeader.new capacity).magic).read layout.magic MAGIC.length :=
    (Frame.writeWord (Nat.le_refl _) (Nat.le_refl _)).read apart
  have stored : (write layout memory (.new capacity)).readWord layout.capacity usizeSize =
      capacity := readWord_writeWord.trans (RawSlots.word_eq small)
  rw [ofBytes, kept, magic, stored]
  rfl

namespace RawTable
variable {K T R : Type} {tableLayout : TableHeaderLayout} {headers : HeaderLayout}
  {self : RawTable K} {codec : Bincode T} {capacity recordSize : Nat}
  {memory before after : TableBytes} {shown between : TableMemory (Node K)} {keyOf : Nat → Option K}

/-- The slots lie behind the table header, and no size wraps around. -/
structure Placed (handle : RawTable K) (capacity recordSize : Nat) : Prop where
  header : tableHeaderSize ≤ handle.slots.basePtr
  small : recordSize < usizeModulus
  index : RawIndex.Placed handle.primaryKeys capacity

/-- The headers of both stores tell the sizes of their slots. -/
structure Spaced (headers : HeaderLayout) (handle : RawTable K) (recordSize : Nat)
    (memory : TableBytes) : Prop where
  data : RawSlots.Spaced headers handle.slots memory.data recordSize
  index : RawIndex.Spaced headers handle.primaryKeys memory.index

/-- No byte outside of the two blocks has changed. -/
structure BlocksFrame (handle : RawTable K) (capacity recordSize : Nat)
    (memory after : TableBytes) : Prop where
  data : Frame 0 (Slots.slotOffset handle.slots.basePtr recordSize capacity) memory.data after.data
  index : Frame 0 (Slots.slotOffset handle.primaryKeys.slots.basePtr handle.primaryKeys.layout.size
    capacity) memory.index after.index

/-- A call that has left this table. -/
structure Done (tableLayout : TableHeaderLayout) (headers : HeaderLayout) (handle : RawTable K)
    (capacity recordSize : Nat) (memory after : TableBytes) (shown : TableMemory (Node K)) :
    Prop where
  view : handle.view tableLayout headers after recordSize = shown
  spaced : Spaced headers handle recordSize after
  frame : BlocksFrame handle capacity recordSize memory after

theorem BlocksFrame.refl (handle : RawTable K) (capacity recordSize : Nat) (memory : TableBytes) :
    BlocksFrame handle capacity recordSize memory memory :=
  ⟨Frame.refl _ _ _, Frame.refl _ _ _⟩

theorem BlocksFrame.trans (first : BlocksFrame self capacity recordSize memory before)
    (second : BlocksFrame self capacity recordSize before after) :
    BlocksFrame self capacity recordSize memory after :=
  ⟨first.data.trans second.data, first.index.trans second.index⟩

theorem Done.refl (spaced : Spaced headers self recordSize memory) :
    Done tableLayout headers self capacity recordSize memory memory
      (self.view tableLayout headers memory recordSize) :=
  ⟨rfl, spaced, .refl ..⟩

theorem Done.trans (first : Done tableLayout headers self capacity recordSize memory before between)
    (second : Done tableLayout headers self capacity recordSize before after shown) :
    Done tableLayout headers self capacity recordSize memory after shown :=
  ⟨second.view, second.spaced, first.frame.trans second.frame⟩

theorem Done.of_data (placed : Placed self capacity recordSize)
    (spaced : Spaced headers self recordSize memory) {data : ByteMemory} {slots : Slots UInt8}
    (done : RawSlots.Done headers self.slots capacity recordSize memory.data data slots) :
    Done tableLayout headers self capacity recordSize memory { memory with data }
      { self.view tableLayout headers memory recordSize with slots } := by
  refine ⟨?_, ⟨done.spaced, spaced.index⟩,
    done.frame.mono (Nat.zero_le _) (Nat.le_refl _), Frame.refl _ _ _⟩
  simp only [RawTable.view, TableHeader.ofBytes_of_frame done.frame placed.header, done.view]

theorem Done.of_index (spaced : Spaced headers self recordSize memory) {index : ByteMemory}
    {block : IndexBlock (Node K)}
    (done : RawIndex.Done headers self.primaryKeys capacity memory.index index block) :
    Done tableLayout headers self capacity recordSize memory { memory with index }
      { self.view tableLayout headers memory recordSize with index := block } := by
  refine ⟨?_, ⟨spaced.data, done.spaced⟩, Frame.refl _ _ _, done.frame⟩
  simp only [RawTable.view, done.view]

/-! ### One call -/

section Calls
variable (placed : Placed self capacity recordSize)
  (spaced : Spaced headers self recordSize memory)
include placed spaced

variable (tableLayout codec) in
theorem update_done {index : Nat} (inside : index < capacity) (record : T) :
    ∃ after, self.update headers codec memory index record =
        ((Table.update codec (self.view tableLayout headers memory recordSize) index record).1,
          after) ∧
      Done tableLayout headers self capacity recordSize memory after
        (Table.update codec (self.view tableLayout headers memory recordSize) index record).2 := by
  cases encoded : codec.encode record with
  | error e =>
    simp only [update, Table.update, encoded]
    exact ⟨memory, rfl, .refl spaced⟩
  | ok bytes =>
    obtain ⟨data, updated, done⟩ := RawSlots.update_done spaced.data placed.small inside bytes
    have last : Done tableLayout headers self capacity recordSize memory { memory with data } _ :=
      .of_data placed spaced done
    have shown : (self.view tableLayout headers memory recordSize).slots =
        self.slots.view headers memory.data recordSize := rfl
    simp only [update, Table.update, encoded, updated, shown]
    cases written : (self.slots.view headers memory.data recordSize).update index bytes with
    | mk result slots =>
      rw [written] at last
      exact ⟨{ memory with data }, rfl, last⟩

omit placed in
theorem get_eq {index : Nat}
    (slots : Slots.Sized capacity recordSize
      (self.view tableLayout headers memory recordSize).slots)
    (used : (self.view tableLayout headers memory recordSize).slots.Occupied index) :
    self.get tableLayout headers codec memory index =
      Table.get codec (self.view tableLayout headers memory recordSize) index := by
  have fits := (slots.wellFormed.fits index used).trans_eq slots.maxData
  rw [get, RawSlots.get_eq spaced.data fun _ => fits]
  rfl

variable [DecidableEq K]
  (lockstep : Lockstep self.shown codec capacity recordSize
    (self.view tableLayout headers memory recordSize) keyOf)
include lockstep

theorem position_eq (key : K) : self.primaryKeys.get headers memory.index key =
    self.shown.primaryKeys.get (self.view tableLayout headers memory recordSize).index key := by
  obtain ⟨order, node, represents, _⟩ := lockstep.nodes
  exact RawIndex.get_eq placed.index spaced.index represents key

/-- The index names a slot in use, or none. -/
theorem position_cases (key : K) :
    (self.primaryKeys.get headers memory.index key = some none ∧ self.shown.primaryKeys.get
      (self.view tableLayout headers memory recordSize).index key = some none) ∨
    ∃ index, (self.view tableLayout headers memory recordSize).slots.Occupied index ∧
      self.primaryKeys.get headers memory.index key = some (some index) ∧
      self.shown.primaryKeys.get (self.view tableLayout headers memory recordSize).index key =
        some (some index) ∧
      self.get tableLayout headers codec memory index =
        Table.get codec (self.view tableLayout headers memory recordSize) index := by
  rw [position_eq placed spaced lockstep]
  obtain absent | ⟨index, found, used⟩ := lockstep.get_cases placed.index.nonempty key
  · exact .inl ⟨absent, absent⟩
  · exact .inr ⟨index, used, found, found, get_eq spaced lockstep.slots used⟩

theorem updateWithLock_done (semop : Nat → Except Errno Unit) {key : K} {f : T → R × T}
    {result : Except InMemoryTableError (Option R)}
    (called : self.shown.updateWithLock codec semop
      (self.view tableLayout headers memory recordSize) key f = some (result, shown)) :
    ∃ after, self.updateWithLock tableLayout headers codec semop memory key f =
        some (result, after) ∧
      Done tableLayout headers self capacity recordSize memory after shown := by
  obtain ⟨absent, same⟩ | ⟨index, used, found, same, read⟩ :=
    position_cases placed spaced lockstep key
  · simp only [Table.updateWithLock, same, bind, Option.bind_some] at called
    cases called
    exact ⟨memory, by simp only [updateWithLock, absent, bind, Option.bind_some], .refl spaced⟩
  · have semaphores : self.shown.semaphores = self.semaphores := rfl
    simp only [Table.updateWithLock, same, bind, Option.bind_some, semaphores] at called
    simp only [updateWithLock, found, bind, Option.bind_some, read]
    cases locked : self.semaphores.lockRecord semop index with
    | error e =>
      simp only [locked] at called ⊢
      cases called
      exact ⟨memory, rfl, .refl spaced⟩
    | ok done =>
      simp only [locked] at called ⊢
      cases got : Table.get codec (self.view tableLayout headers memory recordSize) index with
      | error e =>
        simp only [got] at called ⊢
        cases called
        exact ⟨memory, rfl, .refl spaced⟩
      | ok item =>
        cases item with
        | none =>
          simp only [got] at called ⊢
          cases called
          exact ⟨memory, rfl, .refl spaced⟩
        | some record =>
          obtain ⟨after, updated, done⟩ :=
            update_done tableLayout codec placed spaced (lockstep.inside used) (f record).2
          simp only [got] at called ⊢
          simp only [updated]
          split at called <;> rename_i written <;> rw [written] at done ⊢ <;> cases called
          · exact ⟨after, rfl, done⟩
          · exact ⟨after, rfl, done⟩

theorem find_eq (key : K) : self.find tableLayout headers codec memory key =
    self.shown.find codec (self.view tableLayout headers memory recordSize) key := by
  obtain ⟨absent, same⟩ | ⟨index, _, found, same, read⟩ := position_cases placed spaced lockstep key
  · simp only [find, Table.find, absent, same, bind, Option.bind_some]
  · simp only [find, Table.find, found, same, read, bind, Option.bind_some]

omit [DecidableEq K] in
theorem slotsInsert_done (bytes : List UInt8) :
    ∃ data, self.slots.insert headers memory.data bytes =
        (((self.view tableLayout headers memory recordSize).slots.insert bytes).1, data) ∧
      Done tableLayout headers self capacity recordSize memory { memory with data }
        { self.view tableLayout headers memory recordSize with
          slots := ((self.view tableLayout headers memory recordSize).slots.insert bytes).2 } := by
  obtain ⟨data, inserted, done⟩ := RawSlots.insert_done spaced.data placed.small
    (fun inserted => lockstep.slots.insert_lt inserted)
  exact ⟨data, inserted, .of_data placed spaced done⟩

omit [DecidableEq K] in
theorem indexInsert_done {key : K} {position : Nat} (inside : position < capacity)
    {result : Except InMemoryTableError Unit} {block : IndexBlock (Node K)}
    (called : self.shown.primaryKeys.insert (self.view tableLayout headers memory recordSize).index
      key position = some (result, block)) :
    ∃ index, self.primaryKeys.insert headers memory.index key position = some (result, index) ∧
      RawIndex.Done headers self.primaryKeys capacity memory.index index block := by
  obtain ⟨order, node, represents, own⟩ := lockstep.nodes
  have positions : ∀ i ∈ order, (node i).position < usizeModulus := fun i member =>
    (own i member).1.symm ▸ (represents.mem_lt member).trans placed.index.counted
  exact RawIndex.insert_done placed.index spaced.index represents positions key
    (inside.trans placed.index.counted) called

theorem indexRemove_done {key : K} {result : Except InMemoryTableError Unit}
    {block : IndexBlock (Node K)}
    (called : self.shown.primaryKeys.remove (self.view tableLayout headers memory recordSize).index
      key = some (result, block)) :
    ∃ index, self.primaryKeys.remove headers memory.index key = some (result, index) ∧
      RawIndex.Done headers self.primaryKeys capacity memory.index index block := by
  obtain ⟨order, node, represents, own⟩ := lockstep.nodes
  have positions : ∀ i ∈ order, (node i).position < usizeModulus := fun i member =>
    (own i member).1.symm ▸ (represents.mem_lt member).trans placed.index.counted
  exact RawIndex.remove_done placed.index spaced.index represents positions key called

theorem insert_done [TableRecord T K] (semop : Nat → Except Errno Unit) {record : T}
    {result : Except InMemoryTableError Nat}
    (called : self.shown.insert codec semop (self.view tableLayout headers memory recordSize)
      record = some (result, shown)) :
    ∃ after, self.insert headers codec semop memory record = some (result, after) ∧
      Done tableLayout headers self capacity recordSize memory after shown := by
  have semaphores : self.shown.semaphores = self.semaphores := rfl
  obtain ⟨absent, same⟩ | ⟨index, _, found, same, _⟩ :=
    position_cases placed spaced lockstep (TableRecord.key record)
  swap
  · simp only [Table.insert, same, bind, Option.bind_some] at called
    cases called
    exact ⟨memory, by simp only [insert, found, bind, Option.bind_some], .refl spaced⟩
  simp only [Table.insert, same, bind, Option.bind_some, semaphores] at called
  simp only [insert, absent, bind, Option.bind_some]
  cases locked : self.semaphores.lockTable semop with
  | error e =>
    simp only [locked] at called ⊢
    cases called
    exact ⟨memory, rfl, .refl spaced⟩
  | ok done =>
    simp only [locked] at called ⊢
    cases encoded : codec.encode record with
    | error e =>
      simp only [encoded] at called ⊢
      cases called
      exact ⟨memory, rfl, .refl spaced⟩
    | ok bytes =>
      obtain ⟨data, inserted, filled⟩ := slotsInsert_done placed spaced lockstep bytes
      cases stored : (self.view tableLayout headers memory recordSize).slots.insert bytes with
      | mk outcome slots =>
        rw [stored] at filled inserted
        simp only [encoded, stored] at called
        simp only [inserted]
        cases outcome with
        | error e =>
          cases called
          exact ⟨_, rfl, filled⟩
        | ok index =>
          obtain ⟨⟨linked, block⟩, linking, called⟩ := Option.bind_eq_some_iff.mp called
          obtain ⟨bytes, linking, done⟩ := indexInsert_done placed spaced lockstep
            (lockstep.slots.insert_lt stored) linking
          have last : Done tableLayout headers self capacity recordSize _ ⟨data, bytes⟩ _ :=
            .of_index filled.spaced done
          rw [filled.view] at last
          simp only [linking, Option.bind_some]
          cases linked with
          | error e =>
            cases called
            exact ⟨_, rfl, filled.trans last⟩
          | ok done =>
            cases called
            exact ⟨_, rfl, filled.trans last⟩

theorem remove_done (semop : Nat → Except Errno Unit) {key : K}
    {result : Except InMemoryTableError Unit}
    (called : self.shown.remove semop (self.view tableLayout headers memory recordSize) key =
      some (result, shown)) :
    ∃ after, self.remove headers semop memory key = some (result, after) ∧
      Done tableLayout headers self capacity recordSize memory after shown := by
  have semaphores : self.shown.semaphores = self.semaphores := rfl
  obtain ⟨absent, same⟩ | ⟨index, used, found, same, _⟩ :=
    position_cases placed spaced lockstep key
  · simp only [Table.remove, same, bind, Option.bind_some] at called
    cases called
    exact ⟨memory, by simp only [remove, absent, bind, Option.bind_some], .refl spaced⟩
  simp only [Table.remove, same, bind, Option.bind_some, semaphores] at called
  simp only [remove, found, bind, Option.bind_some]
  cases locked : self.semaphores.lockRecord semop index with
  | error e =>
    simp only [locked] at called ⊢
    cases called
    exact ⟨memory, rfl, .refl spaced⟩
  | ok done =>
    simp only [locked] at called ⊢
    obtain ⟨⟨unlinked, block⟩, unlinking, called⟩ := Option.bind_eq_some_iff.mp called
    cases called
    obtain ⟨bytes, unlinking, done⟩ := indexRemove_done placed spaced lockstep unlinking
    have freed : Done tableLayout headers self capacity recordSize memory
        { memory with data := self.slots.remove headers memory.data index } _ :=
      .of_data placed spaced (RawSlots.remove_done spaced.data placed.index.counted
        (lockstep.inside used))
    have last : Done tableLayout headers self capacity recordSize _
        ⟨self.slots.remove headers memory.data index, bytes⟩ _ := .of_index freed.spaced done
    rw [freed.view] at last
    exact ⟨_, by rw [unlinking]; rfl, freed.trans last⟩

omit spaced lockstep in
theorem updateMany_done (semop : Nat → Except Errno Unit) (updater : T → T) (keys : List K)
    (count : Nat) {result : Except InMemoryTableError Nat}
    (spaced : Spaced headers self recordSize memory)
    (lockstep : Lockstep self.shown codec capacity recordSize
      (self.view tableLayout headers memory recordSize) keyOf)
    (called : self.shown.updateMany codec semop updater
      (self.view tableLayout headers memory recordSize) keys count = some (result, shown)) :
    ∃ after, self.updateMany tableLayout headers codec semop updater memory keys count =
        some (result, after) ∧
      Done tableLayout headers self capacity recordSize memory after shown := by
  have semaphores : self.shown.semaphores = self.semaphores := rfl
  induction keys generalizing memory count with
  | nil =>
    cases called
    exact ⟨memory, rfl, .refl spaced⟩
  | cons key keys ih =>
    obtain ⟨absent, same⟩ | ⟨index, used, found, same, read⟩ :=
      position_cases placed spaced lockstep key
    · simp only [Table.updateMany, same, bind, Option.bind_some] at called
      simp only [updateMany, absent, bind, Option.bind_some]
      exact ih count spaced lockstep called
    simp only [Table.updateMany, same, bind, Option.bind_some, semaphores] at called
    simp only [updateMany, found, bind, Option.bind_some, read]
    cases locked : self.semaphores.lockRecord semop index with
    | error e =>
      simp only [locked] at called ⊢
      cases called
      exact ⟨memory, rfl, .refl spaced⟩
    | ok done =>
      simp only [locked] at called ⊢
      cases got : Table.get codec (self.view tableLayout headers memory recordSize) index with
      | error e =>
        simp only [got] at called ⊢
        cases called
        exact ⟨memory, rfl, .refl spaced⟩
      | ok item =>
        cases item with
        | none =>
          simp only [got] at called ⊢
          exact ih count spaced lockstep called
        | some record =>
          obtain ⟨after, updated, done⟩ :=
            update_done tableLayout codec placed spaced (lockstep.inside used) (updater record)
          have kept := lockstep.update used (updater record)
          simp only [got] at called ⊢
          simp only [updated]
          cases written : Table.update codec (self.view tableLayout headers memory recordSize) index
              (updater record) with
          | mk outcome next =>
            simp only [written] at called done kept ⊢
            cases outcome with
            | error e =>
              cases called
              exact ⟨after, rfl, done⟩
            | ok _ =>
              rw [← done.view] at called kept
              obtain ⟨last, rest, done'⟩ := ih (count + 1) done.spaced kept called
              exact ⟨last, rest, done.trans done'⟩

theorem run_done [TableRecord T K] (semop : Nat → Except Errno Unit) {operation : Operation K T R}
    {reply : Reply T R}
    (called : self.shown.run codec semop (self.view tableLayout headers memory recordSize)
      operation = some (reply, shown)) :
    ∃ after, self.run tableLayout headers codec semop memory operation = some (reply, after) ∧
      Done tableLayout headers self capacity recordSize memory after shown := by
  cases operation with
  | insert record =>
    obtain ⟨⟨result, next⟩, returned, same⟩ := Option.map_eq_some_iff.mp called
    cases same
    obtain ⟨after, inserted, done⟩ := insert_done placed spaced lockstep semop returned
    exact ⟨after, by simp only [run, inserted, Option.map_some], done⟩
  | find key =>
    obtain ⟨result, returned, same⟩ := Option.map_eq_some_iff.mp called
    cases same
    rw [← find_eq placed spaced lockstep] at returned
    exact ⟨memory, by simp only [run, returned, Option.map_some], .refl spaced⟩
  | updateWithLock key f =>
    obtain ⟨⟨result, next⟩, returned, same⟩ := Option.map_eq_some_iff.mp called
    cases same
    obtain ⟨after, updated, done⟩ := updateWithLock_done placed spaced lockstep semop returned
    exact ⟨after, by simp only [run, updated, Option.map_some], done⟩
  | remove key =>
    obtain ⟨⟨result, next⟩, returned, same⟩ := Option.map_eq_some_iff.mp called
    cases same
    obtain ⟨after, removed, done⟩ := remove_done placed spaced lockstep semop returned
    exact ⟨after, by simp only [run, removed, Option.map_some], done⟩
  | updateMany keys updater =>
    obtain ⟨⟨result, next⟩, returned, same⟩ := Option.map_eq_some_iff.mp called
    cases same
    obtain ⟨after, updated, done⟩ :=
      updateMany_done placed semop updater keys 0 spaced lockstep returned
    exact ⟨after, by simp only [run, updated, Option.map_some], done⟩

end Calls
end RawTable

/-! ### Iterating -/

namespace RawSlots
variable {B : Type} {layout : HeaderLayout} {self : RawSlots} {memory : ByteMemory}
  {store : Slots B}

theorem skipFree_eq (states : ∀ i, self.isFree layout memory i = store.isFree i)
    (fuel current : Nat) :
    self.skipFree layout memory fuel current = (store.skipFree fuel current).map Prod.fst := by
  induction fuel generalizing current with
  | zero => rfl
  | succ fuel ih =>
    simp only [skipFree, Slots.skipFree, states, ih]
    split
    · rw [Option.map_map]
      rfl
    · rfl

/-- The slot yielded is the one in front of the cursor that `next` leaves. -/
theorem next_eq (count : self.field layout memory .count = store.count)
    (states : ∀ i, self.isFree layout memory i = store.isFree i) (fuel : Nat)
    (iterator : SlotsIterator) :
    self.next layout memory fuel iterator = (store.next fuel iterator).map (fun outcome =>
      (outcome.item.map (fun _ => outcome.iterator.current - 1), outcome.iterator)) := by
  simp only [next, Slots.next, count, skipFree_eq states]
  split
  · rfl
  · rw [Option.map_map, Option.map_map]
    rfl

theorem isFree_eq {dataSize : Nat} (spaced : Spaced layout self memory dataSize) (i : Nat) :
    self.isFree layout memory i = (self.view layout memory dataSize).isFree i := by
  rw [isFree, spaced.getRecordMetadata_eq]
  rfl

theorem next_view {dataSize : Nat} (spaced : Spaced layout self memory dataSize) (fuel : Nat)
    (iterator : SlotsIterator) :
    self.next layout memory fuel iterator =
      ((self.view layout memory dataSize).next fuel iterator).map (fun outcome =>
        (outcome.item.map (fun _ => outcome.iterator.current - 1), outcome.iterator)) :=
  have count : self.field layout memory .count = (self.view layout memory dataSize).count := rfl
  next_eq count (isFree_eq spaced) fuel iterator

end RawSlots

theorem Slots.cells_isFree {K : Type} (layout : NodeBytes K) (store : Slots UInt8) (i : Nat) :
    (store.cells layout).isFree i = store.isFree i := rfl

theorem RawIndex.next_view {K : Type} {headers : HeaderLayout} {self : RawIndex K}
    {memory : ByteMemory} (spaced : Spaced headers self memory) (fuel : Nat)
    (iterator : SlotsIterator) :
    self.slots.next headers memory fuel iterator =
      ((self.view headers memory).slots.next fuel iterator).map (fun outcome =>
        (outcome.item.map (fun _ => outcome.iterator.current - 1), outcome.iterator)) := by
  have count : self.slots.field headers memory .count = (self.view headers memory).slots.count := rfl
  have states : ∀ i, self.slots.isFree headers memory i =
      (self.view headers memory).slots.isFree i := by
    intro i
    rw [RawSlots.isFree_eq spaced]
    exact (Slots.cells_isFree self.layout (self.byteView headers memory) i).symm
  exact RawSlots.next_eq count states fuel iterator

/-- An iterator that looks at the slot in front of the cursor collects the items of
all slots in use. -/
theorem Slots.WellFormed.collect_cursor {B α : Type} {store : Slots B} (wf : store.WellFormed)
    {step : SlotsIterator → Option (Option α × SlotsIterator)} {rel : Nat → α → Prop}
    (stops : ∀ iterator,
      store.next store.header.capacity iterator = some ⟨none, [], iterator⟩ →
      step iterator = some (none, iterator))
    (moves : ∀ iterator i examined found, store.Occupied i →
      store.next store.header.capacity iterator =
        some ⟨some (store.get i), examined, ⟨i + 1, found⟩⟩ →
      ∃ item, step iterator = some (some item, ⟨i + 1, found⟩) ∧ rel i item) :
    ∃ items, Iteration.collect step (store.header.capacity + 1) iter = some items ∧
      List.Forall₂ rel store.occupiedSlots items := by
  refine Iteration.collect_of_yields store.Coming rel ?_ ?_ wf.coming_iter ?_
  · exact fun coming => ⟨_, stops _ (coming.1.stops _)⟩
  · rintro i rest iterator ⟨remaining, used⟩
    obtain ⟨examined, moved, _, behind⟩ := remaining.moves
    obtain ⟨item, stepped, related⟩ := moves _ _ _ _ (used i List.mem_cons_self) moved
    exact ⟨item, _, stepped, related, behind, fun j member => used j (List.mem_cons_of_mem _ member)⟩
  · rw [← wf.count_eq]
    have := wf.count_le
    omega

namespace RawTable
variable {K T R : Type} {tableLayout : TableHeaderLayout} {headers : HeaderLayout}
  {self : RawTable K} {codec : Bincode T} {capacity recordSize : Nat}
  {memory before after : TableBytes} {keyOf : Nat → Option K}

section Queries
variable (spaced : Spaced headers self recordSize memory)
  (lockstep : Lockstep self.shown codec capacity recordSize
    (self.view tableLayout headers memory recordSize) keyOf)
include spaced lockstep

/-- The shown store and the bytes behind the iterator over the records. -/
theorem nextRecord_reads :
    ∃ items, Iteration.collect (self.nextRecord headers codec memory
        (self.view tableLayout headers memory recordSize).slots.header.capacity)
        ((self.view tableLayout headers memory recordSize).slots.header.capacity + 1) Slots.iter =
          some items ∧
      List.Forall₂ (fun i record => codec.decode
          ((self.view tableLayout headers memory recordSize).slots.get i) = .ok record)
        (self.view tableLayout headers memory recordSize).slots.occupiedSlots items := by
  have next := RawSlots.next_view spaced.data
  refine lockstep.slots.wellFormed.collect_cursor ?_ ?_
  · intro iterator stopped
    have stopped : (self.slots.view headers memory.data recordSize).next _ iterator = _ := stopped
    simp only [nextRecord, next, stopped, Option.map_some, Option.map_none]
  · intro iterator i examined found used moved
    obtain ⟨record, decodes⟩ := lockstep.decodable i used
    have moved : (self.slots.view headers memory.data recordSize).next _ iterator = _ := moved
    have fits := (lockstep.slots.wellFormed.fits i used).trans_eq lockstep.slots.maxData
    have read : self.slots.get headers memory.data i =
        (self.view tableLayout headers memory recordSize).slots.get i :=
      RawSlots.get_eq spaced.data fun _ => fits
    refine ⟨record, ?_, decodes⟩
    simp only [nextRecord, next, moved, Option.map_some, Nat.add_sub_cancel, read]
    unfold Bincode.decode at decodes
    split at decodes
    · cases decodes
    · rename_i stored
      cases decodes
      simp [stored, Except.toOption]

theorem iter_eq : self.iter headers codec memory =
    Table.iter codec (self.view tableLayout headers memory recordSize) := by
  have capacity : self.slots.field headers memory.data .capacity =
      (self.view tableLayout headers memory recordSize).slots.header.capacity := rfl
  obtain ⟨items, iterated, decoded⟩ := nextRecord_reads spaced lockstep
  obtain ⟨items', iterated', decoded'⟩ :=
    lockstep.slots.wellFormed.collect_slots (Table.records_read lockstep.decodable)
  have same : items = items' := List.right_unique_forall₂'
    (fun i first second one two => Except.ok.inj (one.symm.trans two)) decoded decoded'
  rw [RawTable.iter, Table.iter, capacity, iterated, iterated', same]

omit lockstep in
theorem nextKey_reads {order : List Nat} {node : Nat → Node K}
    (represents : self.primaryKeys.shown.Represents capacity
      (self.primaryKeys.view headers memory.index) order node) :
    ∃ keys, Iteration.collect (self.nextKey headers memory
        (self.primaryKeys.view headers memory.index).slots.header.capacity)
        ((self.primaryKeys.view headers memory.index).slots.header.capacity + 1) Slots.iter =
          some keys ∧
      List.Forall₂ (fun i key => (node i).key = key)
        (self.primaryKeys.view headers memory.index).slots.occupiedSlots keys := by
  have next := RawIndex.next_view spaced.index
  refine represents.slots.wellFormed.collect_cursor ?_ ?_
  · intro iterator stopped
    simp only [nextKey, next, stopped, Option.map_some, Option.map_none, bind, Option.bind_some]
  · intro iterator i examined found used moved
    have read := RawIndex.readNode_mem spaced.index represents ((represents.live i).mpr used)
    refine ⟨(node i).key, ?_, rfl⟩
    simp only [nextKey, next, moved, Option.map_some, bind, Option.bind_some, Nat.add_sub_cancel,
      read]

theorem keys_eq : self.keys headers memory =
    self.shown.keys (self.view tableLayout headers memory recordSize) := by
  obtain ⟨order, node, represents, _⟩ := lockstep.nodes
  have capacity : self.primaryKeys.slots.field headers memory.index .capacity =
      (self.primaryKeys.view headers memory.index).slots.header.capacity := rfl
  obtain ⟨keys, iterated, named⟩ := nextKey_reads spaced represents
  obtain ⟨keys', iterated', named'⟩ := represents.slots.wellFormed.collect_slots
    (Table.keys_read (fun i used => represents.read i ((represents.live i).mpr used)))
  have same : keys = keys' := List.right_unique_forall₂'
    (fun i first second one two => one.symm.trans two) named named'
  rw [RawTable.keys, Table.keys, capacity, iterated, iterated', same]

theorem query_eq (query : Query) : self.query tableLayout headers codec memory query =
    self.shown.query codec (self.view tableLayout headers memory recordSize) query := by
  cases query with
  | count => rfl
  | capacity => rfl
  | iter => simp only [RawTable.query, Table.query, iter_eq spaced lockstep]
  | keys => simp only [RawTable.query, Table.query, keys_eq spaced lockstep]

end Queries

/-! ### Creating and opening -/

section New
variable {layout : NodeBytes K} {hasher : K → Nat} {semId : Nat}

def handle (layout : NodeBytes K) (hasher : K → Nat) (semId capacity : Nat) : RawTable K :=
  { slots := ⟨Header.data 0 tableHeaderSize⟩
    semaphores := .ofRecords semId capacity
    primaryKeys := .handle layout hasher capacity }

theorem checkAligned_records : checkAligned (Header.data 0 tableHeaderSize) headerAlignment = .ok () :=
  rfl

theorem openExisting_eq (layout : NodeBytes K) (hasher : K → Nat) (semId : Nat)
    (header : TableHeader.ofBytes tableLayout memory.data = .new capacity) :
    openExisting tableLayout layout hasher semId memory = .ok (handle layout hasher semId capacity) := by
  have valid : (TableHeader.new capacity).isValid = true := rfl
  simp only [openExisting, RawIndex.checkAligned_start, header, valid, if_true,
    RawSlots.openExisting, checkAligned_records]
  have index : RawIndex.openExisting layout hasher (TableHeader.new capacity).capacity =
    .ok (.handle layout hasher capacity) := RawIndex.openExisting_eq layout hasher capacity
  simp only [index]
  rfl

variable (positive : 1 ≤ capacity)
  (data : Slots.NoWrap (Header.data 0 tableHeaderSize) capacity recordSize)
  (index : Slots.NoWrap (Index.totalBucketsSize capacity) capacity layout.size)
include positive data index

theorem handle_placed : Placed (handle layout hasher semId capacity) capacity recordSize where
  header := Nat.le_add_left ..
  small := (Nat.le_add_left ..).trans_lt (data.slotSize_lt positive)
  index := RawIndex.handle_placed positive index

variable (tableLayout headers hasher semId) in
theorem create_done (memory : TableBytes) :
    ∃ after records nodes,
      createWithSize tableLayout headers layout hasher semId capacity recordSize memory =
        (.ok (handle layout hasher semId capacity), after) ∧
      Done tableLayout headers (handle layout hasher semId capacity) capacity recordSize memory after
        (Table.createWithSize (.cell K) hasher semId capacity recordSize records nodes).2 := by
  have placed : Placed (handle layout hasher semId capacity) capacity recordSize :=
    handle_placed positive data index
  have short := Table.calculateTotalSize_short positive data
  have behind := RawSlots.header_le_slotOffset (Header.data 0 tableHeaderSize) recordSize capacity
  generalize zeros : memory.data.write 0
    (List.replicate (Table.calculateTotalSize capacity recordSize) 0) = zeroed
  have cleared : Frame 0 (Slots.slotOffset (Header.data 0 tableHeaderSize) recordSize capacity)
      memory.data zeroed := by
    rw [← zeros]
    exact .write (Nat.le_refl _) (by rw [List.length_replicate]; omega)
  have headed := TableHeader.write_frame tableLayout zeroed capacity
  obtain ⟨bytes, created, slots⟩ : ∃ bytes, RawSlots.new headers _ _ _ _ = (.ok _, bytes) ∧ _ :=
    RawSlots.new_done checkAligned_records placed.index.counted (data.slotSize_lt positive)
      (TableHeader.write tableLayout zeroed (.new capacity))
  generalize (RawSlots.view headers ⟨Header.data 0 tableHeaderSize⟩
    (TableHeader.write tableLayout zeroed (.new capacity)) recordSize).slot = records at slots
  obtain ⟨block, nodes, indexed, buckets⟩ : ∃ block nodes,
      RawIndex.new headers memory.index layout hasher capacity = (.ok _, block) ∧ _ :=
    RawIndex.new_done positive index memory.index
  have header : TableHeader.ofBytes tableLayout bytes = .new capacity :=
    (TableHeader.ofBytes_of_frame slots.frame placed.header).trans
      (TableHeader.ofBytes_write tableLayout zeroed placed.index.counted)
  refine ⟨⟨bytes, block⟩, records, nodes, ?_, ?_, ⟨slots.spaced, buckets.spaced⟩, ?_, buckets.frame⟩
  · simp only [createWithSize, RawIndex.checkAligned_start, zeros, created, indexed]
    rfl
  · have records := slots.view
    have blocks := buckets.view
    simp only [view, handle, header, records, blocks]
    rfl
  · refine cleared.trans ((headed.mono (Nat.le_refl _) ?_).trans
      (slots.frame.mono (Nat.zero_le _) (Nat.le_refl _)))
    exact placed.header.trans ((Nat.le_add_right ..).trans behind)

end New

/-! ### Whole sequences of calls -/

/-- A public call through the latest handle, or one more process that opens the table. -/
inductive Request (K T R : Type) where
  | openExisting
  | call (call : PublicCall K T R)

inductive Response (K T R : Type) where
  | opened
  | replied (reply : PublicReply K T R)

section Runs
variable [DecidableEq K] [TableRecord T K]

/-- One public call; all semaphore operations succeed. -/
def publicCall (tableLayout : TableHeaderLayout) (headers : HeaderLayout) (self : RawTable K)
    (codec : Bincode T) (memory : TableBytes) :
    PublicCall K T R → Option (PublicReply K T R × TableBytes)
  | .operation operation =>
    (self.run tableLayout headers codec (fun _ => .ok ()) memory operation).map
      (fun (reply, after) => (.operation reply, after))
  | .query query =>
    (self.query tableLayout headers codec memory query).map (fun answer => (.query answer, memory))

def step (tableLayout : TableHeaderLayout) (headers : HeaderLayout) (layout : NodeBytes K)
    (hasher : K → Nat) (semId : Nat) (codec : Bincode T) :
    RawTable K × TableBytes → Request K T R → Option (Response K T R × RawTable K × TableBytes)
  | (_, memory), .openExisting =>
    match openExisting tableLayout layout hasher semId memory with
    | .error _ => none
    | .ok handle => some (.opened, handle, memory)
  | (handle, memory), .call request =>
    (handle.publicCall tableLayout headers codec memory request).map
      (fun (reply, after) => (.replied reply, handle, after))

end Runs
end RawTable

def Registry.request {K T R : Type} [DecidableEq K] [TableRecord T K] (codec : Bincode T)
    (capacity recordSize : Nat) (registry : Registry K T) :
    RawTable.Request K T R → RawTable.Response K T R × Registry K T
  | .openExisting => (.opened, registry)
  | .call call =>
    let (reply, after) := registry.publicCall codec capacity recordSize call
    (.replied reply, after)

namespace RawTable
variable {K T R : Type} [DecidableEq K] [TableRecord T K] {tableLayout : TableHeaderLayout}
  {headers : HeaderLayout} {layout : NodeBytes K} {hasher : K → Nat} {semId : Nat}
  {codec : Bincode T} {capacity recordSize : Nat} {memory : TableBytes}
  {state : RawTable K × TableBytes} {registry : Registry K T}

/-- The handle is one for the table in the bytes, which show the registry; `memory` is
what the blocks were before. -/
structure Follows (tableLayout : TableHeaderLayout) (headers : HeaderLayout) (layout : NodeBytes K)
    (hasher : K → Nat) (semId : Nat) (codec : Bincode T) (capacity recordSize : Nat)
    (memory : TableBytes) (state : RawTable K × TableBytes) (registry : Registry K T) : Prop where
  handle : state.1 = handle layout hasher semId capacity
  spaced : Spaced headers state.1 recordSize state.2
  shows : state.1.shown.Shows codec capacity recordSize
    (state.1.view tableLayout headers state.2 recordSize) registry
  frame : BlocksFrame state.1 capacity recordSize memory state.2

theorem Follows.publicCall
    (follows : Follows tableLayout headers layout hasher semId codec capacity recordSize memory
      state registry)
    (placed : Placed state.1 capacity recordSize) (serves : state.1.shown.Serves capacity)
    (call : PublicCall K T R) :
    ∃ after, state.1.publicCall tableLayout headers codec state.2 call =
        some ((registry.publicCall codec capacity recordSize call).1, after) ∧
      Follows tableLayout headers layout hasher semId codec capacity recordSize memory
        (state.1, after) (registry.publicCall codec capacity recordSize call).2 := by
  obtain ⟨handle, spaced, shows, frame⟩ := follows
  have lockstep := shows.lockstep
  cases call with
  | operation operation =>
    obtain ⟨shown, called, shows'⟩ := shows.run serves operation
    obtain ⟨keyOf, lockstep⟩ := lockstep
    obtain ⟨after, ran, done⟩ := run_done placed spaced lockstep _ called
    refine ⟨after, ?_, handle, done.spaced, ?_, frame.trans done.frame⟩
    · rw [RawTable.publicCall, ran]
      rfl
    · rw [done.view]
      exact shows'
  | query query =>
    obtain ⟨keyOf, lockstep⟩ := lockstep
    refine ⟨state.2, ?_, handle, spaced, shows, frame⟩
    rw [RawTable.publicCall, query_eq spaced lockstep, shows.query query]
    rfl

theorem Follows.step
    (follows : Follows tableLayout headers layout hasher semId codec capacity recordSize memory
      state registry)
    (placed : Placed (RawTable.handle layout hasher semId capacity) capacity recordSize)
    (serves : (RawTable.handle layout hasher semId capacity).shown.Serves capacity)
    (request : Request K T R) :
    ∃ after, step tableLayout headers layout hasher semId codec state request =
        some ((registry.request codec capacity recordSize request).1, after) ∧
      Follows tableLayout headers layout hasher semId codec capacity recordSize memory after
        (registry.request codec capacity recordSize request).2 := by
  cases request with
  | openExisting =>
    obtain ⟨records, filed⟩ := follows.shows.filed
    have header : TableHeader.ofBytes tableLayout state.2.data = .new capacity := filed.holds.header
    refine ⟨state, ?_, follows⟩
    rw [RawTable.step, openExisting_eq layout hasher semId header, ← follows.handle]
    rfl
  | call call =>
    rw [← follows.handle] at placed serves
    obtain ⟨after, called, follows'⟩ := follows.publicCall placed serves call
    refine ⟨_, ?_, follows'⟩
    rw [RawTable.step, called]
    rfl

end RawTable

/-- On the bytes of a new table every sequence of public calls, through handles opened
at any time, returns with the replies of the registry; no byte behind the last slot of
either block changes. -/
theorem bytes_follow_registry {K T R : Type} [DecidableEq K] [TableRecord T K] [Inhabited K]
    (tableLayout : TableHeaderLayout) (headers : HeaderLayout) (layout : NodeBytes K)
    (hasher : K → Nat) (semId : Nat) (codec : Bincode T) (capacity recordSize : Nat)
    (positive : 1 ≤ capacity)
    (data : Slots.NoWrap (Header.data 0 tableHeaderSize) capacity recordSize)
    (index : Slots.NoWrap (Index.totalBucketsSize capacity) capacity layout.size)
    (memory : TableBytes) (requests : List (RawTable.Request K T R)) :
    ∃ handle start last after,
      RawTable.createWithSize tableLayout headers layout hasher semId capacity recordSize memory =
        (.ok handle, start) ∧
      execute (RawTable.step tableLayout headers layout hasher semId codec) (handle, start)
          requests =
        some ((replay (Registry.request codec capacity recordSize) (.new capacity) requests).1,
          last, after) ∧
      (∀ address, Slots.slotOffset (Header.data 0 tableHeaderSize) recordSize capacity ≤ address →
        after.data address = memory.data address) ∧
      ∀ address, Slots.slotOffset (Index.totalBucketsSize capacity) layout.size capacity ≤ address →
        after.index address = memory.index address := by
  have placed : RawTable.Placed (.handle layout hasher semId capacity) capacity recordSize :=
    RawTable.handle_placed positive data index
  have serves : (RawTable.handle layout hasher semId capacity).shown.Serves capacity :=
    Table.handle_serves (.cell K) hasher semId positive
  obtain ⟨start, records, nodes, created, done⟩ := RawTable.create_done tableLayout headers hasher
    semId positive data index memory
  have begun : RawTable.Follows tableLayout headers layout hasher semId codec capacity recordSize
      memory (.handle layout hasher semId capacity, start) (.new capacity) := by
    refine ⟨rfl, done.spaced, ?_, done.frame⟩
    rw [done.view]
    exact .of_create (.cell K) hasher semId codec capacity recordSize records nodes
      (data.slotSize_lt positive)
  obtain ⟨⟨last, after⟩, executed, follows⟩ := simulates_replay
    (Registry.request codec capacity recordSize) _
    (fun request follows => follows.step placed serves request) begun requests
  obtain ⟨rfl, _, _, frame⟩ := follows
  exact ⟨_, start, _, after, created, executed, fun address behind => frame.data address (.inr behind),
    fun address behind => frame.index address (.inr behind)⟩

/-- A record removed, and its slot filled again by another process. -/
def recycledRequests : List (RawTable.Request UInt8 (UInt8 × UInt8) Unit) :=
  [.call (.operation (.insert (1, 1))), .call (.operation (.insert (2, 2))), .openExisting,
    .call (.operation (.remove 1)), .openExisting, .call (.operation (.insert (3, 3))),
    .call (.query .keys)]

theorem bytes_follow_registry_sample :
    ∃ handle start last after,
      RawTable.createWithSize .alignedFirst .declared .uint8 UInt8.toNat 0 2 2
          ⟨fun _ => 255, fun _ => 255⟩ = (.ok handle, start) ∧
      execute (RawTable.step .alignedFirst .declared .uint8 UInt8.toNat 0 .twoBytes)
          (handle, start) recycledRequests =
        some ([.replied (.operation (.inserted (.ok 0))), .replied (.operation (.inserted (.ok 1))),
          .opened, .replied (.operation (.removed (.ok ()))), .opened,
          .replied (.operation (.inserted (.ok 0))), .replied (.query (.keys [3, 2]))],
          last, after) ∧
      (∀ address, 84 ≤ address → after.data address = 255) ∧
      ∀ address, 128 ≤ address → after.index address = 255 :=
  bytes_follow_registry .alignedFirst .declared .uint8 UInt8.toNat 0 .twoBytes 2 2 (by decide)
    (by unfold Slots.NoWrap; decide) (by unfold Slots.NoWrap; decide) ⟨fun _ => 255, fun _ => 255⟩
    recycledRequests

/-! ### Slots that overlap -/

/-- Two insertions and a search of the first record. -/
def overlappingCalls : List (Operation UInt8 (UInt8 × UInt8) Unit) :=
  [.insert (1, 10), .insert (2, 20), .find 1]

def overlappingReplies : List (Reply (UInt8 × UInt8) Unit) :=
  [.inserted (.ok 0), .inserted (.ok 0), .found (.ok (some (2, 20)))]

/-- Slots for records of 2^64 - 8 bytes are eight bytes apart: in a table for two, both
records get slot 0, and the second is found under the first key. -/
theorem run_bounded_map_overlapping :
    ∃ table start last,
      RawTable.createWithSize .alignedFirst .declared .uint8 UInt8.toNat 0 2 (2 ^ 64 - 8)
          ⟨fun _ => 0, fun _ => 0⟩ = (.ok table, start) ∧
      execute (fun memory operation => table.run .alignedFirst .declared .twoBytes
          (fun _ => .ok ()) memory operation) start overlappingCalls =
        some (overlappingReplies, last) ∧
      ∀ records, ¬ Follows (Records.Answers .twoBytes 2 (2 ^ 64 - 8)) ∅ overlappingCalls
        overlappingReplies records := by
  have executed : (execute (fun memory operation => (RawTable.handle .uint8 UInt8.toNat 0 2).run
      .alignedFirst .declared .twoBytes (fun _ => .ok ()) memory operation)
      (RawTable.createWithSize .alignedFirst .declared .uint8 UInt8.toNat 0 2 (2 ^ 64 - 8)
        ⟨fun _ => 0, fun _ => 0⟩).2 overlappingCalls).map Prod.fst = some overlappingReplies := by
    decide +kernel
  obtain ⟨⟨_, last⟩, executed, rfl⟩ := Option.map_eq_some_iff.mp executed
  refine ⟨.handle .uint8 UInt8.toNat 0 2, _, last, rfl, executed, fun records follows => ?_⟩
  -- the second insertion may not get the slot of the first
  cases follows with
  | next first follows =>
    cases first
    cases follows with
    | next second _ =>
      cases second with
      | inserted _ _ unused => exact unused.2 1 _ (Finmap.lookup_insert _) rfl

end InMemoryTable
