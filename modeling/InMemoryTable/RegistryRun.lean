import InMemoryTable.CompleteIteration
import InMemoryTable.Library.Simulation
import InMemoryTable.Registry

/-! Every sequence of public calls on a new table answers as the registry does. The
free list in shared memory is the stack of the registry, and the lockstep of the two
stores makes `keys()` list the entries in the order of `iter()`. -/
namespace InMemoryTable
open Simulation

namespace Slots
variable {B : Type} {store slots : Slots B} {free : List Nat} {index : Nat} {data : List B}

theorem FreeList.count_add (list : store.FreeList free) (wf : store.WellFormed) :
    store.header.count + free.length = store.header.capacity := by
  rw [wf.count_eq]
  exact list.length_add

/-- An insertion pops the first free slot. -/
theorem FreeList.insert (list : store.FreeList free)
    (room : store.header.count < store.header.capacity) (wf : store.WellFormed)
    (inserted : store.insert data = (.ok index, slots)) :
    ∃ rest, free = index :: rest ∧ slots.FreeList rest := by
  obtain ⟨start, header, used, others⟩ := insert_eq inserted
  have total := list.count_add wf
  obtain ⟨linked, nodup, member⟩ := list
  cases free with
  | nil =>
    simp only [List.length_nil] at total
    omega
  | cons first rest =>
    obtain ⟨head, linked⟩ := linked
    obtain rfl : index = first := start.trans head
    obtain ⟨outside, nodup⟩ := List.nodup_cons.mp nodup
    refine ⟨rest, rfl, ?_, nodup, fun i => ?_⟩
    · rw [header]
      exact linked.congr (fun i inside => by rw [others i (ne_of_mem_of_not_mem inside outside)])
    · by_cases same : i = index
      · subst same
        refine iff_of_false outside (fun unused => ?_)
        exact absurd (used.symm.trans unused.2) nofun
      · have kept := member i
        simp only [List.mem_cons, same, false_or] at kept
        rw [kept, Free, Free, others i same, header]

/-- A removal pushes its slot. -/
theorem FreeList.remove (list : store.FreeList free) (occupied : store.Occupied index) :
    (store.remove index).FreeList (index :: free) := by
  obtain ⟨linked, nodup, member⟩ := list
  have outside : index ∉ free := fun unused => occupied.not_free ((member index).mp unused)
  refine ⟨?_, List.nodup_cons.mpr ⟨outside, nodup⟩, fun i => ?_⟩
  · refine linked.push (a := index) ?_ (fun i inside => ?_)
    · rw [remove_self]
    · rw [remove_other (ne_of_mem_of_not_mem inside outside)]
  · by_cases same : i = index
    · subst same
      exact iff_of_true List.mem_cons_self ⟨occupied.1, by rw [remove_self]⟩
    · simp only [List.mem_cons, same, false_or]
      rw [member i, Free, Free, remove_other same]
      rfl

theorem SameFree.freeList (same : SameFree store slots) (list : store.FreeList free) :
    slots.FreeList free := by
  obtain ⟨linked, nodup, member⟩ := list
  refine ⟨?_, nodup, fun i => ?_⟩
  · rw [same.header]
    exact linked.congr (fun i inside => same.link i ((member i).mp inside).2)
  · rw [member i, Free, Free, same.header, same.state]

theorem new_freeList (memory : Nat → Slot B) (capacity dataSize : Nat) :
    (new memory capacity dataSize).FreeList (List.range capacity) := by
  have header := new_header memory capacity dataSize
  refine ⟨?_, List.nodup_range, fun i => ?_⟩
  · rw [header, List.range_eq_range']
    have links : ∀ i, 0 ≤ i → i < 0 + capacity →
        ((new memory capacity dataSize).slot i).size = i + 1 := by
      intro i _ bound
      rw [new_slot _ _ _ _ (by omega)]
    simpa [SlotsHeader.new] using linked_range 0 capacity links
  · rw [List.mem_range, Free, header]
    refine ⟨fun bound => ⟨bound, ?_⟩, And.left⟩
    rw [new_slot _ _ _ _ bound]

end Slots

namespace Table
variable {K T R B : Type} [DecidableEq K] {table : Table K B} {codec : Bincode T}
  {capacity recordSize : Nat} {memory : TableMemory B} {registry : Registry K T}

/-- The memory files the entries of the registry under their keys, and its free list
is the stack. -/
structure Filed (table : Table K B) (codec : Bincode T) (capacity recordSize : Nat)
    (memory : TableMemory B) (registry : Registry K T) (records : Records K T) : Prop where
  holds : table.Holds codec capacity recordSize memory records
  files : registry.Files records
  free : memory.slots.FreeList registry.free

namespace Filed
variable {records : Records K T}

theorem slotOf_eq (filed : table.Filed codec capacity recordSize memory registry records)
    (key : K) : registry.slotOf capacity key = records.lookup key := by
  refine filed.files.slotOf_eq (fun lookup => ?_) key
  rw [← filed.holds.slots.capacity]
  exact (filed.holds.stored lookup).1.1

/-- The private `update` on the slot of a live record. -/
theorem replace (filed : table.Filed codec capacity recordSize memory registry records) {key : K}
    {index : Nat} {record : T} (lookup : records.lookup key = some (index, record)) (written : T) :
    ∃ after records',
      Table.update codec memory index written =
        ((registry.replace codec recordSize index key written).1, after) ∧
      table.Filed codec capacity recordSize after
        (registry.replace codec recordSize index key written).2 records' := by
  have occupied := (filed.holds.stored lookup).1
  have outcome : (∃ e, Records.accept codec recordSize written = .error e ∧ _) ∨ _ :=
    Table.update_cases filed.holds.slots occupied written
  obtain ⟨e, refused, same⟩ | ⟨accepted, bytes, slots, same, encoded, updated⟩ := outcome
  · simp only [Registry.replace, refused]
    exact ⟨memory, records, same, filed⟩
  · simp only [Registry.replace, accepted]
    refine ⟨_, _, same, filed.holds.replace lookup encoded updated, ?_,
      (updated.sameFree occupied).freeList filed.free⟩
    refine filed.files.put (fun other value filed' => ?_) (fun i value lookup' => ?_) written
    · exact filed.holds.distinct ((filed.files other index value).mp filed') lookup
    · exact (congrArg Prod.fst (Option.some.inj (lookup'.symm.trans lookup)))

theorem updateWithLock (filed : table.Filed codec capacity recordSize memory registry records)
    (serves : table.Serves capacity) (key : K) (f : T → R × T) :
    ∃ after records',
      table.updateWithLock codec (fun _ => .ok ()) memory key f =
        some ((registry.updateWithLock codec capacity recordSize key f).1, after) ∧
      table.Filed codec capacity recordSize after
        (registry.updateWithLock codec capacity recordSize key f).2 records' := by
  have position := filed.holds.lookup_eq serves.buckets key
  cases found : records.lookup key with
  | none =>
    simp only [Registry.updateWithLock, filed.slotOf_eq, found]
    exact ⟨memory, records, by simp [Table.updateWithLock, position, found], filed⟩
  | some entry =>
    obtain ⟨index, record⟩ := entry
    have locked := filed.holds.lockRecord serves found
    have read := filed.holds.get_eq found
    obtain ⟨after, records', same, filed'⟩ := filed.replace found (f record).2
    refine ⟨after, records', ?_⟩
    simp only [Registry.updateWithLock, filed.slotOf_eq, found]
    generalize registry.replace codec recordSize index key (f record).2 = outcome at same filed'
    obtain ⟨_ | _, registry'⟩ := outcome
    · exact ⟨by simp [Table.updateWithLock, position, found, locked, read, same], filed'⟩
    · exact ⟨by simp [Table.updateWithLock, position, found, locked, read, same], filed'⟩

theorem updateMany (filed : table.Filed codec capacity recordSize memory registry records)
    (serves : table.Serves capacity) (updater : T → T) (keys : List K) (found : Nat) :
    ∃ after records',
      table.updateMany codec (fun _ => .ok ()) updater memory keys found =
        some ((Registry.updateMany codec capacity recordSize updater registry keys found).1,
          after) ∧
      table.Filed codec capacity recordSize after
        (Registry.updateMany codec capacity recordSize updater registry keys found).2 records' := by
  induction keys generalizing memory registry records found with
  | nil => exact ⟨memory, records, rfl, filed⟩
  | cons key keys ih =>
    have position := filed.holds.lookup_eq serves.buckets key
    cases lookup : records.lookup key with
    | none =>
      obtain ⟨after, records', same, filed'⟩ := ih filed found
      refine ⟨after, records', ?_⟩
      simp only [Registry.updateMany, filed.slotOf_eq, lookup]
      exact ⟨by simp [Table.updateMany, position, lookup, same], filed'⟩
    | some entry =>
      obtain ⟨index, record⟩ := entry
      have locked := filed.holds.lockRecord serves lookup
      have read := filed.holds.get_eq lookup
      obtain ⟨middle, records', same, filed'⟩ := filed.replace lookup (updater record)
      simp only [Registry.updateMany, filed.slotOf_eq, lookup]
      generalize registry.replace codec recordSize index key (updater record) = outcome
        at same filed'
      obtain ⟨_ | _, registry'⟩ := outcome
      · exact ⟨middle, records', by simp [Table.updateMany, position, lookup, locked, read, same],
          filed'⟩
      · obtain ⟨after, records', rest, filed'⟩ := ih filed' (found + 1)
        exact ⟨after, records',
          by simp [Table.updateMany, position, lookup, locked, read, same, rest], filed'⟩

theorem remove (filed : table.Filed codec capacity recordSize memory registry records)
    (serves : table.Serves capacity) (key : K) :
    ∃ after records', table.remove (fun _ => .ok ()) memory key = some (.ok (), after) ∧
      table.Filed codec capacity recordSize after (registry.remove capacity key) records' := by
  obtain ⟨after, same, holds'⟩ := filed.holds.remove serves key
  have position := filed.holds.lookup_eq serves.buckets key
  simp only [Registry.remove, filed.slotOf_eq]
  cases found : records.lookup key with
  | none =>
    exact ⟨memory, records, by simp [Table.remove, position, found], filed⟩
  | some entry =>
    obtain ⟨index, record⟩ := entry
    refine ⟨after, _, same, holds', filed.files.release found, ?_⟩
    have locked := filed.holds.lockRecord serves found
    simp only [Table.remove, position, found, locked, Option.map_some, bind, Option.bind_some]
      at same
    obtain ⟨⟨result, block⟩, _, same⟩ := Option.bind_eq_some_iff.mp same
    cases same
    exact filed.free.remove (filed.holds.stored found).1

theorem insert [TableRecord T K]
    (filed : table.Filed codec capacity recordSize memory registry records)
    (serves : table.Serves capacity) (record : T) :
    ∃ after records',
      table.insert codec (fun _ => .ok ()) memory record =
        some ((registry.insert codec capacity recordSize record).1, after) ∧
      table.Filed codec capacity recordSize after
        (registry.insert codec capacity recordSize record).2 records' := by
  have call := filed.holds.lookup_eq serves.buckets (TableRecord.key record)
  have locked := table.semaphores.lockTable_ok (fun _ => .ok ()) rfl
  simp only [Registry.insert, filed.slotOf_eq]
  cases found : records.lookup (TableRecord.key record) with
  | some entry => exact ⟨memory, records, by simp [Table.insert, call, found], filed⟩
  | none =>
    cases encoded : codec.encode record with
    | error e => exact ⟨memory, records, by simp [Table.insert, call, found, locked, encoded], filed⟩
    | ok bytes =>
      have total := filed.free.count_add filed.holds.slots.wellFormed
      have limit := filed.holds.slots.capacity
      obtain ⟨full, same⟩ | ⟨room, big, same⟩ | ⟨room, fits, index, slots, same, inserted⟩ :=
        filed.holds.slots.insert_cases bytes
      · have empty : registry.free = [] := List.length_eq_zero_iff.mp (by omega)
        have count : memory.slots.header.count = capacity := by
          have := filed.holds.slots.wellFormed.count_le
          omega
        rw [count] at same
        simp only [empty]
        exact ⟨memory, records, by simp [Table.insert, call, found, locked, encoded, same], filed⟩
      · cases free : registry.free with
        | nil =>
          rw [free, List.length_nil] at total
          omega
        | cons index rest =>
          simp only [gt_iff_lt, big, if_true]
          exact ⟨memory, records, by simp [Table.insert, call, found, locked, encoded, same], filed⟩
      · obtain ⟨rest, free, popped⟩ :=
          filed.free.insert (by rwa [limit]) filed.holds.slots.wellFormed same
        have absent : TableRecord.key record ∉ records := Finmap.lookup_eq_none.mp found
        obtain ⟨block, linked, held⟩ := filed.holds.extend serves absent encoded inserted
        simp only [free, gt_iff_lt, Nat.not_lt.mpr fits, if_false]
        refine ⟨_, _, by simp [Table.insert, call, found, locked, encoded, same, linked], held, ?_,
          popped⟩
        refine filed.files.put (fun other value filed' => ?_) (fun i value lookup => ?_) record
        · have used := (filed.holds.stored ((filed.files other index value).mp filed')).1
          exact absurd inserted.wasFree used.not_free
        · rw [found] at lookup
          contradiction

theorem run [TableRecord T K]
    (filed : table.Filed codec capacity recordSize memory registry records)
    (serves : table.Serves capacity) (operation : Operation K T R) :
    ∃ after records', table.run codec (fun _ => .ok ()) memory operation =
        some ((registry.run codec capacity recordSize operation).1, after) ∧
      table.Filed codec capacity recordSize after
        (registry.run codec capacity recordSize operation).2 records' := by
  cases operation with
  | insert record =>
    obtain ⟨after, records', same, filed'⟩ := filed.insert serves record
    exact ⟨after, records', by simp only [Table.run, same]; rfl, filed'⟩
  | find key =>
    refine ⟨memory, records, ?_, filed⟩
    simp only [Table.run, filed.holds.find serves key, Registry.run, Registry.find, filed.slotOf_eq]
    rfl
  | updateWithLock key f =>
    obtain ⟨after, records', same, filed'⟩ := filed.updateWithLock serves key f
    exact ⟨after, records', by simp only [Table.run, same]; rfl, filed'⟩
  | remove key =>
    obtain ⟨after, records', same, filed'⟩ := filed.remove serves key
    exact ⟨after, records', by simp only [Table.run, same]; rfl, filed'⟩
  | updateMany keys updater =>
    obtain ⟨after, records', same, filed'⟩ := filed.updateMany serves updater keys 0
    exact ⟨after, records', by simp only [Table.run, same]; rfl, filed'⟩

end Filed

/-! ### Counting and iterating -/

/-- The calls that change nothing: `count`, `capacity`, and a whole iteration. -/
def query (self : Table K B) (codec : Bincode T) (memory : TableMemory B) :
    Query → Option (Answer K T)
  | .count => some (.number memory.slots.count)
  | .capacity => some (.number memory.header.capacity)
  | .iter => (Table.iter codec memory).map .records
  | .keys => (self.keys memory).map .keys

/-- The memory shows the registry to whoever calls and iterates. -/
structure Shows (table : Table K B) (codec : Bincode T) (capacity recordSize : Nat)
    (memory : TableMemory B) (registry : Registry K T) : Prop where
  filed : ∃ records, table.Filed codec capacity recordSize memory registry records
  lockstep : ∃ keyOf, Lockstep table codec capacity recordSize memory keyOf

namespace Shows

theorem of_create [Inhabited K] (layout : NodeLayout K B) (hasher : K → Nat) (semId : Nat)
    (codec : Bincode T) (capacity recordSize : Nat) (data : Nat → Slot UInt8) (nodes : Nat → Slot B)
    (small : Slots.slotMetadataSize + recordSize < usizeModulus) :
    Shows (handle layout hasher semId capacity) codec capacity recordSize
      (createWithSize layout hasher semId capacity recordSize data nodes).2
      (Registry.new capacity) where
  filed := ⟨∅, .of_create layout hasher semId data nodes small, .empty capacity,
    Slots.new_freeList data capacity recordSize⟩
  lockstep := ⟨fun _ => none, .of_create layout hasher semId data nodes _ small⟩

theorem run [TableRecord T K] (shows : table.Shows codec capacity recordSize memory registry)
    (serves : table.Serves capacity) (operation : Operation K T R) :
    ∃ after, table.run codec (fun _ => .ok ()) memory operation =
        some ((registry.run codec capacity recordSize operation).1, after) ∧
      table.Shows codec capacity recordSize after
        (registry.run codec capacity recordSize operation).2 := by
  obtain ⟨⟨records, filed⟩, keyOf, lockstep⟩ := shows
  obtain ⟨after, records', called, filed'⟩ := filed.run serves operation
  obtain ⟨reply, after', returned, lockstep'⟩ :=
    lockstep.run (fun _ => .ok ()) serves.buckets operation
  cases called.symm.trans returned
  exact ⟨after, called, ⟨records', filed'⟩, _, lockstep'⟩

/-- The entries are those of the slots in use, each with its node and its record. -/
theorem entries (shows : table.Shows codec capacity recordSize memory registry) :
    ∃ order node, table.primaryKeys.Represents capacity memory.index order node ∧
      List.Forall₂ (fun i entry => (node i).key = entry.1 ∧
          codec.decode (memory.slots.get i) = .ok entry.2)
        memory.slots.occupiedSlots (registry.entries capacity) := by
  obtain ⟨⟨records, filed⟩, keyOf, lockstep⟩ := shows
  obtain ⟨order, node, represents, own⟩ := lockstep.nodes
  have lookup : ∀ i, memory.slots.Occupied i →
      ∃ record, records.lookup (node i).key = some (i, record) := fun i used =>
    filed.holds.under_slot represents (fun i member => (own i member).1)
      (lockstep.parallel.occupied_iff.mp used)
  have occupied : memory.slots.occupiedSlots =
      (List.range capacity).filter (fun i => (registry.entry i).isSome) := by
    rw [Slots.occupiedSlots, lockstep.slots.capacity]
    apply List.filter_congr
    intro i _
    rw [← Bool.decide_coe (registry.entry i).isSome]
    refine decide_eq_decide.mpr ⟨fun used => ?_, fun stored => ?_⟩
    · obtain ⟨record, found⟩ := lookup i used
      exact Option.isSome_of_eq_some ((filed.files _ i record).mpr found)
    · obtain ⟨⟨key, record⟩, stored⟩ := Option.isSome_iff_exists.mp stored
      exact (filed.holds.stored ((filed.files key i record).mp stored)).1
  refine ⟨order, node, represents, ?_⟩
  have paired : List.Forall₂ (fun i entry => registry.entry i = some entry)
      memory.slots.occupiedSlots (registry.entries capacity) := by
    rw [occupied, Registry.entries]
    induction List.range capacity with
    | nil => exact .nil
    | cons i rest ih =>
      cases stored : registry.entry i with
      | none => simpa [stored] using ih
      | some entry => simpa [stored] using ih
  have used : ∀ i ∈ memory.slots.occupiedSlots, memory.slots.Occupied i :=
    fun i member => Slots.mem_occupiedSlots.mp member
  refine ((List.forall₂_and_left (p := memory.slots.Occupied) _ _).mpr ⟨used, paired⟩).imp ?_
  rintro i ⟨key, record⟩ ⟨member, stored⟩
  have filedThere := (filed.files key i record).mp stored
  obtain ⟨record', found⟩ := lookup i member
  have same := (filed.files _ i record').mpr found
  rw [stored] at same
  cases same
  exact ⟨rfl, (filed.holds.stored filedThere).2⟩

theorem query (shows : table.Shows codec capacity recordSize memory registry) (query : Query) :
    table.query codec memory query = some (registry.query capacity query) := by
  obtain ⟨order, node, represents, entries⟩ := shows.entries
  obtain ⟨⟨records, filed⟩, keyOf, lockstep⟩ := shows
  cases query with
  | count =>
    have count : memory.slots.count = (registry.entries capacity).length := by
      rw [← entries.length_eq, ← lockstep.slots.wellFormed.count_eq]
      rfl
    simp only [Table.query, Registry.query, count]
  | capacity => simp only [Table.query, Registry.query, filed.holds.header_capacity]
  | iter =>
    obtain ⟨items, iterated, decoded⟩ :=
      lockstep.slots.wellFormed.collect_slots (Table.records_read lockstep.decodable)
    have same : items = (registry.entries capacity).map Prod.snd := by
      refine List.right_unique_forall₂' (fun i first second one two => ?_) decoded
        (List.forall₂_map_right_iff.mpr (entries.imp fun _ _ => And.right))
      exact Except.ok.inj (one.symm.trans two)
    have iterated : Table.iter codec memory = some items := iterated
    simp only [Table.query, Registry.query, iterated, same, Option.map_some]
  | keys =>
    obtain ⟨keys, listed, named⟩ :
        ∃ keys, table.keys memory = some keys ∧
          List.Forall₂ (fun i key => (node i).key = key) memory.index.slots.occupiedSlots keys :=
      represents.slots.wellFormed.collect_slots
        (Table.keys_read (fun i used => represents.read i ((represents.live i).mpr used)))
    rw [lockstep.parallel.occupiedSlots_eq] at named
    have same : keys = (registry.entries capacity).map Prod.fst :=
      List.right_unique_forall₂' (fun i first second one two => one.symm.trans two) named
        (List.forall₂_map_right_iff.mpr (entries.imp fun _ _ => And.left))
    simp only [Table.query, Registry.query, listed, same, Option.map_some]

end Shows
end Table

/-! ### Whole sequences of calls -/

inductive PublicCall (K T R : Type) where
  | operation (operation : Operation K T R)
  | query (query : Query)

inductive PublicReply (K T R : Type) where
  | operation (reply : Reply T R)
  | query (answer : Answer K T)

section Runs
variable {K T R B : Type} [DecidableEq K] [TableRecord T K]

/-- One public call; all semaphore operations succeed. -/
def Table.publicCall (self : Table K B) (codec : Bincode T) (memory : TableMemory B) :
    PublicCall K T R → Option (PublicReply K T R × TableMemory B)
  | .operation operation =>
    (self.run codec (fun _ => .ok ()) memory operation).map
      (fun (reply, after) => (.operation reply, after))
  | .query query => (self.query codec memory query).map (fun answer => (.query answer, memory))

def Registry.publicCall (codec : Bincode T) (capacity recordSize : Nat) (registry : Registry K T) :
    PublicCall K T R → PublicReply K T R × Registry K T
  | .operation operation =>
    let (reply, after) := registry.run codec capacity recordSize operation
    (.operation reply, after)
  | .query query => (.query (registry.query capacity query), registry)

theorem Table.Shows.publicCall {table : Table K B} {codec : Bincode T} {capacity recordSize : Nat}
    {memory : TableMemory B} {registry : Registry K T}
    (shows : table.Shows codec capacity recordSize memory registry)
    (serves : table.Serves capacity) (call : PublicCall K T R) :
    ∃ after, table.publicCall codec memory call =
        some ((registry.publicCall codec capacity recordSize call).1, after) ∧
      table.Shows codec capacity recordSize after
        (registry.publicCall codec capacity recordSize call).2 := by
  cases call with
  | operation operation =>
    obtain ⟨after, called, shows'⟩ := shows.run serves operation
    exact ⟨after, by simp only [Table.publicCall, called]; rfl, shows'⟩
  | query query => exact ⟨memory, by simp only [Table.publicCall, shows.query query]; rfl, shows⟩

/-- The calls on a new table are those of the registry, and the table shows it after them. -/
theorem Table.Shows.of_calls [Inhabited K] (layout : NodeLayout K B) (hasher : K → Nat)
    (semId : Nat) (codec : Bincode T) (capacity recordSize : Nat) (positive : 1 ≤ capacity)
    (small : Slots.slotMetadataSize + recordSize < usizeModulus)
    (data : Nat → Slot UInt8) (nodes : Nat → Slot B) (calls : List (PublicCall K T R)) :
    ∃ after, execute ((Table.handle layout hasher semId capacity).publicCall codec)
        (Table.createWithSize layout hasher semId capacity recordSize data nodes).2 calls =
      some ((replay (Registry.publicCall codec capacity recordSize) (.new capacity) calls).1,
        after) ∧
      Table.Shows (Table.handle layout hasher semId capacity) codec capacity recordSize after
        (replay (Registry.publicCall codec capacity recordSize) (.new capacity) calls).2 :=
  simulates_replay (Registry.publicCall codec capacity recordSize)
    (Table.Shows (Table.handle layout hasher semId capacity) codec capacity recordSize)
    (fun call shows => shows.publicCall (Table.handle_serves layout hasher semId positive) call)
    (.of_create layout hasher semId codec capacity recordSize data nodes small) calls

/-- From a new table every sequence of public calls returns, and its replies are
those of the registry, slot numbers and orders of iteration included. -/
theorem run_registry [Inhabited K] (layout : NodeLayout K B) (hasher : K → Nat) (semId : Nat)
    (codec : Bincode T) (capacity recordSize : Nat) (positive : 1 ≤ capacity)
    (fits : Slots.SizeFits tableHeaderSize capacity recordSize)
    (data : Nat → Slot UInt8) (nodes : Nat → Slot B) (calls : List (PublicCall K T R)) :
    ∃ after, execute ((Table.handle layout hasher semId capacity).publicCall codec)
        (Table.createWithSize layout hasher semId capacity recordSize data nodes).2 calls =
      some ((replay (Registry.publicCall codec capacity recordSize) (.new capacity) calls).1,
        after) := by
  obtain ⟨after, executed, _⟩ :=
    Table.Shows.of_calls layout hasher semId codec capacity recordSize positive
      fits.stride data nodes calls
  exact ⟨after, executed⟩

end Runs

/-- Two records, the first removed: the third takes its slot and comes first. -/
def recycledCalls : List (PublicCall UInt8 (UInt8 × UInt8) Unit) :=
  [.operation (.insert (1, 1)), .operation (.insert (2, 2)), .operation (.remove 1),
    .operation (.insert (3, 3)), .query .keys]

theorem run_registry_sample :
    ∃ after, execute ((Table.handle (.cell UInt8) UInt8.toNat 0 2).publicCall .twoBytes)
        (Table.createWithSize (.cell UInt8) UInt8.toNat 0 2 2 (fun _ => ⟨.free, 0, []⟩)
          (fun _ => ⟨.free, 0, []⟩)).2 recycledCalls =
      some ([.operation (.inserted (.ok 0)), .operation (.inserted (.ok 1)),
        .operation (.removed (.ok ())), .operation (.inserted (.ok 0)),
        .query (.keys [3, 2])], after) :=
  run_registry (.cell UInt8) UInt8.toNat 0 .twoBytes 2 2 (by decide)
    ⟨by decide, by decide⟩ _ _ recycledCalls

end InMemoryTable
