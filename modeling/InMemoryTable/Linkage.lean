import InMemoryTable.TableInvariant

/-! The index of a table while clients insert and remove: between the two halves
of a removal the first entry of a key names a slot that is free, or used again
by another record. -/
namespace InMemoryTable

/-- The slots that the index names for each key: at most one that a removal has
freed already, then those of stored records, oldest first. -/
structure Linkage (K : Type) where
  dead : K → Option Nat
  live : K → List Nat

namespace Linkage
variable {K : Type}

def all (linkage : Linkage K) (key : K) : List Nat :=
  (linkage.dead key).toList ++ linkage.live key

/-- A removal of the key is going to free this slot. -/
def Due (linkage : Linkage K) (key : K) (index : Nat) : Prop :=
  linkage.dead key = none ∧ (linkage.live key).head? = some index

variable [DecidableEq K]

def link (linkage : Linkage K) (key : K) (index : Nat) : Linkage K :=
  { linkage with live := Function.update linkage.live key (linkage.live key ++ [index]) }

def free (linkage : Linkage K) (key : K) : Linkage K where
  dead := Function.update linkage.dead key (linkage.live key).head?
  live := Function.update linkage.live key (linkage.live key).tail

def unlink (linkage : Linkage K) (key : K) : Linkage K :=
  { linkage with dead := Function.update linkage.dead key none }

variable {linkage : Linkage K} {key other : K} {index i : Nat}

theorem all_link : (linkage.link key index).all other =
    linkage.all other ++ if key = other then [index] else [] := by
  by_cases same : key = other
  · subst same
    simp [all, link]
  · simp [all, link, same, Function.update_of_ne (Ne.symm same)]

theorem all_free (alive : linkage.dead key = none) : (linkage.free key).all = linkage.all := by
  funext other
  by_cases same : other = key
  · subst same
    cases slots : linkage.live other <;> simp [all, free, alive, slots]
  · simp [all, free, Function.update_of_ne same]

theorem all_unlink (dead : linkage.dead key = some index) :
    (linkage.unlink key).all other =
      if other = key then (linkage.all other).tail else linkage.all other := by
  by_cases same : other = key
  · subst same
    simp [all, unlink, dead]
  · simp [all, unlink, same]

omit [DecidableEq K] in
theorem mem_all : i ∈ linkage.all key ↔ linkage.dead key = some i ∨ i ∈ linkage.live key := by
  simp [all]

theorem live_link_self : (linkage.link key index).live key = linkage.live key ++ [index] :=
  Function.update_self ..

theorem live_link_other (different : other ≠ key) :
    (linkage.link key index).live other = linkage.live other :=
  Function.update_of_ne different ..

theorem mem_live_link :
    i ∈ (linkage.link key index).live other ↔ i ∈ linkage.live other ∨ other = key ∧ i = index := by
  by_cases same : other = key
  · subst same
    simp [live_link_self]
  · simp [live_link_other same, same]

theorem dead_free_self : (linkage.free key).dead key = (linkage.live key).head? :=
  Function.update_self ..

theorem dead_free_other (different : other ≠ key) :
    (linkage.free key).dead other = linkage.dead other :=
  Function.update_of_ne different ..

theorem live_free_self : (linkage.free key).live key = (linkage.live key).tail :=
  Function.update_self ..

theorem live_free_other (different : other ≠ key) :
    (linkage.free key).live other = linkage.live other :=
  Function.update_of_ne different ..

omit [DecidableEq K] in
theorem Due.mem (due : linkage.Due key index) : index ∈ linkage.live key :=
  List.mem_of_mem_head? due.2

theorem Due.link (due : linkage.Due key index) : (linkage.link other i).Due key index := by
  refine ⟨due.1, ?_⟩
  by_cases same : key = other
  · subst same
    rw [live_link_self, List.head?_append, due.2]
    rfl
  · rw [live_link_other same, due.2]

/-- Every entry but the one that is freed stays alive. -/
theorem mem_live_free (due : linkage.Due key index) (member : i ∈ linkage.live other)
    (different : i ≠ index) : i ∈ (linkage.free key).live other := by
  by_cases same : other = key
  · subst same
    obtain ⟨rest, split⟩ := List.head?_eq_some_iff.mp due.2
    rw [live_free_self, split]
    rw [split] at member
    exact (List.mem_cons.mp member).resolve_left different
  · rwa [live_free_other same]

theorem mem_of_mem_live_free (member : i ∈ (linkage.free key).live other) :
    i ∈ linkage.live other := by
  by_cases same : other = key
  · subst same
    rw [live_free_self] at member
    exact List.mem_of_mem_tail member
  · rwa [live_free_other same] at member

theorem dead_unlink_other (different : other ≠ key) :
    (linkage.unlink key).dead other = linkage.dead other :=
  Function.update_of_ne different ..

end Linkage

variable {K T B : Type} [DecidableEq K]

/-- A node in use of the index carries the key and the slot. -/
def Index.Links (index : Index K B) (block : IndexBlock B) (key : K) (position : Nat) : Prop :=
  ∃ i < block.slots.header.capacity, block.slots.Occupied i ∧
    (index.readNode block i).map (fun node => (node.key, node.position)) = some (key, position)

instance (index : Index K B) (block : IndexBlock B) (key : K) (position : Nat) :
    Decidable (index.Links block key position) :=
  inferInstanceAs (Decidable (∃ i < _, _))

omit [DecidableEq K] in
theorem Index.Refines.links_iff {index : Index K B} {capacity : Nat} {block : IndexBlock B}
    {entries : List (K × Nat)} (refines : index.Refines capacity block entries) {key : K}
    {position : Nat} : index.Links block key position ↔ (key, position) ∈ entries := by
  obtain ⟨order, node, represents, rfl⟩ := refines
  constructor
  · rintro ⟨i, _, used, carried⟩
    have member := (represents.live i).mpr used
    rw [represents.read i member] at carried
    exact List.mem_map.mpr ⟨i, member, Option.some.inj carried⟩
  · intro entry
    obtain ⟨i, member, same⟩ := List.mem_map.mp entry
    have used := (represents.live i).mp member
    refine ⟨i, used.1, used, ?_⟩
    rw [represents.read i member, ← same]
    rfl

variable [TableRecord T K]

/-- Every live entry of a key names a slot of its own that stores a record with
this key. -/
structure Table.Keyed (table : Table K B) (codec : Bincode T) (capacity recordSize : Nat)
    (memory : TableMemory B) (linkage : Linkage K) : Prop where
  header : memory.header = .new capacity
  buckets : 0 < table.primaryKeys.totalBuckets
  slots : Slots.Sized capacity recordSize memory.slots
  indexed : ∃ entries, table.primaryKeys.Refines capacity memory.index entries ∧
    ∀ key, FifoMultimap.queue entries key = linkage.all key
  stored : ∀ {key index}, index ∈ linkage.live key → memory.slots.Occupied index ∧
    ∃ record, codec.decode (memory.slots.get index) = .ok record ∧ TableRecord.key record = key
  nodup : ∀ key, (linkage.live key).Nodup
  bound : ∀ {key index}, linkage.dead key = some index → index < capacity

namespace Table.Keyed
variable {table : Table K B} {codec : Bincode T} {capacity recordSize : Nat}
  {memory : TableMemory B} {linkage : Linkage K} {key : K} {index : Nat}

theorem get_eq (keyed : table.Keyed codec capacity recordSize memory linkage) (key : K) :
    table.primaryKeys.get memory.index key = some (linkage.all key).head? := by
  obtain ⟨entries, refines, agree⟩ := keyed.indexed
  rw [refines.get_eq keyed.buckets, FifoMultimap.get_eq_head?, agree]

theorem links_iff (keyed : table.Keyed codec capacity recordSize memory linkage) :
    table.primaryKeys.Links memory.index key index ↔ index ∈ linkage.all key := by
  obtain ⟨entries, refines, agree⟩ := keyed.indexed
  rw [refines.links_iff, ← agree, FifoMultimap.mem_queue]

theorem lt_of_live (keyed : table.Keyed codec capacity recordSize memory linkage)
    (member : index ∈ linkage.live key) : index < capacity := by
  rw [← keyed.slots.capacity]
  exact (keyed.stored member).1.1

theorem lt_of_mem (keyed : table.Keyed codec capacity recordSize memory linkage)
    (member : index ∈ linkage.all key) : index < capacity := by
  rcases Linkage.mem_all.mp member with dead | live
  · exact keyed.bound dead
  · exact keyed.lt_of_live live

/-- The record in the slot of a live entry. -/
theorem record (keyed : table.Keyed codec capacity recordSize memory linkage)
    (member : index ∈ linkage.live key) :
    ∃ record, Table.get codec memory index = .ok (some record) ∧ TableRecord.key record = key := by
  obtain ⟨_, record, decoded, same⟩ := keyed.stored member
  have bound := keyed.lt_of_live member
  have capacity : memory.header.capacity = capacity := by
    rw [keyed.header]
    rfl
  refine ⟨record, ?_, same⟩
  rw [Table.get, capacity, if_neg (by omega), decoded]
  rfl

/-- A slot belongs to one key only. -/
theorem same_key (keyed : table.Keyed codec capacity recordSize memory linkage) {other : K}
    (member : index ∈ linkage.live key) (member' : index ∈ linkage.live other) : key = other := by
  obtain ⟨_, record, decoded, same⟩ := keyed.stored member
  obtain ⟨_, record', decoded', same'⟩ := keyed.stored member'
  cases decoded.symm.trans decoded'
  exact same.symm.trans same'

/-- A record goes into a slot that no live entry names. -/
theorem store (keyed : table.Keyed codec capacity recordSize memory linkage) {data : List UInt8}
    {slots : Slots UInt8} (inserted : Slots.Inserted memory.slots index data slots) :
    table.Keyed codec capacity recordSize { memory with slots } linkage where
  header := keyed.header
  buckets := keyed.buckets
  slots := inserted.sized keyed.slots
  indexed := keyed.indexed
  stored {other i} member := by
    obtain ⟨used, record, decoded, same⟩ := keyed.stored member
    have apart : i ≠ index := by
      rintro rfl
      exact used.not_free inserted.wasFree
    refine ⟨inserted.occupied_iff.mpr (.inl used), record, ?_, same⟩
    rwa [Slots.get_congr (inserted.others i apart)]
  nodup := keyed.nodup
  bound := keyed.bound

/-- Linking a stored record. -/
theorem link (keyed : table.Keyed codec capacity recordSize memory linkage) {record : T}
    {block : IndexBlock B} {result : Except InMemoryTableError Unit}
    (used : memory.slots.Occupied index)
    (decoded : codec.decode (memory.slots.get index) = .ok record)
    (unlinked : ∀ key, index ∉ linkage.live key)
    (linked : table.primaryKeys.insert memory.index (TableRecord.key record) index =
      some (result, block)) :
    block = memory.index ∨ table.Keyed codec capacity recordSize { memory with index := block }
      (linkage.link (TableRecord.key record) index) := by
  obtain ⟨entries, refines, agree⟩ := keyed.indexed
  rcases Nat.lt_or_ge entries.length capacity with room | full
  · obtain ⟨block', same, refined⟩ :=
      refines.insert_ok keyed.buckets (TableRecord.key record) index room
    cases same.symm.trans linked
    refine .inr ⟨keyed.header, keyed.buckets, keyed.slots, ⟨_, refined, fun other => ?_⟩, ?_, ?_,
      keyed.bound⟩
    · rw [FifoMultimap.queue_append, agree, Linkage.all_link]
    · intro other i member
      rcases Linkage.mem_live_link.mp member with member | ⟨rfl, rfl⟩
      · exact keyed.stored member
      · exact ⟨used, record, decoded, rfl⟩
    · intro other
      by_cases same : other = TableRecord.key record
      · subst same
        rw [Linkage.live_link_self]
        apply List.Nodup.append (keyed.nodup _) (List.nodup_singleton _)
        intro i member new
        cases List.mem_singleton.mp new
        exact unlinked _ member
      · rw [Linkage.live_link_other same]
        exact keyed.nodup other
  · cases (refines.insert_full keyed.buckets (TableRecord.key record) index full).symm.trans linked
    exact .inl rfl

/-- Replacing the record of a live entry by one with the same key. -/
theorem replace (keyed : table.Keyed codec capacity recordSize memory linkage) {written : T}
    {data : List UInt8} {slots : Slots UInt8} (member : index ∈ linkage.live key)
    (encoded : codec.encode written = .ok data) (same : TableRecord.key written = key)
    (updated : Slots.Updated memory.slots index data slots) :
    table.Keyed codec capacity recordSize { memory with slots } linkage where
  header := keyed.header
  buckets := keyed.buckets
  slots := updated.sized keyed.slots
  indexed := keyed.indexed
  stored {other i} member' := by
    obtain ⟨used, record, decoded, same'⟩ := keyed.stored member'
    refine ⟨(updated.occupied_iff (keyed.stored member).1).mpr used, ?_⟩
    by_cases here : i = index
    · subst here
      obtain rfl := keyed.same_key member member'
      exact ⟨written, by rw [updated.stored, codec.decode_encode encoded], same⟩
    · exact ⟨record, by rwa [Slots.get_congr (updated.others i here)], same'⟩
  nodup := keyed.nodup
  bound := keyed.bound

/-- The first half of a removal. -/
theorem free (keyed : table.Keyed codec capacity recordSize memory linkage)
    (due : linkage.Due key index) :
    Slots.Removed memory.slots index (memory.slots.remove index) ∧
      table.Keyed codec capacity recordSize
        { memory with slots := memory.slots.remove index } (linkage.free key) := by
  have member := due.mem
  have removed := keyed.slots.wellFormed.remove_ok (keyed.stored member).1
  refine ⟨removed, keyed.header, keyed.buckets, removed.sized keyed.slots, ?_, ?_, ?_, ?_⟩
  · obtain ⟨entries, refines, agree⟩ := keyed.indexed
    exact ⟨entries, refines, fun other => by rw [agree, Linkage.all_free due.1]⟩
  · intro other i member'
    obtain ⟨used, record, decoded, same⟩ := keyed.stored (Linkage.mem_of_mem_live_free member')
    have apart : i ≠ index := by
      rintro rfl
      obtain rfl := keyed.same_key member (Linkage.mem_of_mem_live_free member')
      rw [Linkage.live_free_self] at member'
      obtain ⟨rest, split⟩ := List.head?_eq_some_iff.mp due.2
      have nodup := keyed.nodup key
      rw [split] at nodup member'
      exact (List.nodup_cons.mp nodup).1 member'
    refine ⟨removed.occupied_iff.mpr ⟨used, apart⟩, record, ?_, same⟩
    rwa [Slots.get_congr (removed.others i apart)]
  · intro other
    by_cases same : other = key
    · subst same
      rw [Linkage.live_free_self]
      exact (keyed.nodup other).tail
    · rw [Linkage.live_free_other same]
      exact keyed.nodup other
  · intro other i dead
    by_cases same : other = key
    · subst same
      rw [Linkage.dead_free_self] at dead
      exact keyed.lt_of_live (List.mem_of_mem_head? dead)
    · rw [Linkage.dead_free_other same] at dead
      exact keyed.bound dead

/-- The second half of a removal. -/
theorem unlink (keyed : table.Keyed codec capacity recordSize memory linkage)
    {result : Except InMemoryTableError Unit} {block : IndexBlock B}
    (dead : linkage.dead key = some index)
    (removed : table.primaryKeys.remove memory.index key = some (result, block)) :
    table.Keyed codec capacity recordSize { memory with index := block } (linkage.unlink key) := by
  obtain ⟨entries, refines, agree⟩ := keyed.indexed
  obtain ⟨block', same, refined⟩ := refines.remove_ok keyed.buckets key
  cases same.symm.trans removed
  refine ⟨keyed.header, keyed.buckets, keyed.slots, ⟨_, refined, fun other => ?_⟩, keyed.stored,
    keyed.nodup, ?_⟩
  · rw [Linkage.all_unlink dead]
    split
    · rename_i same
      subst same
      rw [FifoMultimap.queue_remove_self, agree]
    · rename_i different
      rw [FifoMultimap.queue_remove_other (Ne.symm different), agree]
  · intro other i dead'
    by_cases same : other = key
    · subst same
      cases (Function.update_self ..).symm.trans dead'
    · rw [Linkage.dead_unlink_other same] at dead'
      exact keyed.bound dead'

end Table.Keyed

/-- Outside of removals every entry is alive. -/
def Linkage.ofRecords (records : Records K T) : Linkage K where
  dead _ := none
  live key := ((records.lookup key).map Prod.fst).toList

/-- A table whose records are stored under their own keys. -/
theorem Table.Holds.to_keyed {table : Table K B} {codec : Bincode T} {capacity recordSize : Nat}
    {memory : TableMemory B} {records : Records K T}
    (holds : table.Holds codec capacity recordSize memory records) (serves : table.Serves capacity)
    (keyed : records.Keyed) :
    table.Keyed codec capacity recordSize memory (Linkage.ofRecords records) where
  header := holds.header
  buckets := serves.buckets
  slots := holds.slots
  indexed := by
    obtain ⟨entries, refines, nodup, agree⟩ := holds.indexed
    refine ⟨entries, refines, fun key => ?_⟩
    rw [FifoMultimap.queue_of_nodup nodup, agree]
    rfl
  stored {key index} member := by
    obtain ⟨⟨_, record⟩, lookup, rfl⟩ := Option.map_eq_some_iff.mp (Option.mem_toList.mp member)
    obtain ⟨used, decoded⟩ := holds.stored lookup
    exact ⟨used, record, decoded, keyed lookup⟩
  nodup key := by
    simp only [Linkage.ofRecords]
    cases (records.lookup key).map Prod.fst <;> simp
  bound := nofun

end InMemoryTable
