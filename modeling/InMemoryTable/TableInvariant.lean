import InMemoryTable.IndexInvariant
import InMemoryTable.Records
import InMemoryTable.SlotsRun

/-! The joint invariant of the record slots and the index, and the effect of
every call on it: the memory of a table holds a bounded map. -/
namespace InMemoryTable
namespace Table
variable {K T R B : Type} [DecidableEq K] {table : Table K B} {codec : Bincode T}
  {capacity recordSize : Nat} {memory : TableMemory B} {records : Records K T}

/-- A handle that fits a table of `capacity` records. -/
structure Serves (table : Table K B) (capacity : Nat) : Prop where
  semaphores : ∃ semId, table.semaphores = .ofRecords semId capacity
  buckets : 0 < table.primaryKeys.totalBuckets

omit [DecidableEq K] in
theorem handle_serves (layout : NodeLayout K B) (hasher : K → Nat) (semId : Nat)
    (positive : 1 ≤ capacity) : (handle layout hasher semId capacity).Serves capacity where
  semaphores := ⟨semId, rfl⟩
  buckets := totalBuckets_pos positive

/-- The index maps the keys of `records` to their indices, and the slot of each
index holds the bytes of the record. -/
structure Holds (table : Table K B) (codec : Bincode T) (capacity recordSize : Nat)
    (memory : TableMemory B) (records : Records K T) : Prop where
  header : memory.header = .new capacity
  slots : Slots.Sized capacity recordSize memory.slots
  indexed : ∃ entries, table.primaryKeys.Refines capacity memory.index entries ∧
    (entries.map Prod.fst).Nodup ∧
    ∀ key, FifoMultimap.get entries key = (records.lookup key).map Prod.fst
  stored : ∀ {key index record}, records.lookup key = some (index, record) →
    memory.slots.Occupied index ∧ codec.decode (memory.slots.get index) = .ok record
  distinct : ∀ {first second index record record'},
    records.lookup first = some (index, record) → records.lookup second = some (index, record') →
    first = second
  count : memory.slots.header.count = records.keys.card

theorem card_keys {entries : List (K × Nat)} (nodup : (entries.map Prod.fst).Nodup)
    (agree : ∀ key, FifoMultimap.get entries key = (records.lookup key).map Prod.fst) :
    records.keys.card = entries.length := by
  have same : records.keys = (entries.map Prod.fst).toFinset := by
    ext key
    rw [Finmap.mem_keys, ← Finmap.lookup_isSome, List.mem_toFinset]
    have lookups : (records.lookup key).isSome = (FifoMultimap.get entries key).isSome := by
      rw [agree, Option.isSome_map]
    rw [lookups]
    constructor
    · intro found
      obtain ⟨index, found⟩ := Option.isSome_iff_exists.mp found
      exact List.mem_map_of_mem (f := Prod.fst) (FifoMultimap.mem_of_get found)
    · intro member
      obtain ⟨entry, present, rfl⟩ := List.mem_map.mp member
      exact FifoMultimap.get_isSome_of_mem (v := entry.2) present
  rw [same, List.toFinset_card_of_nodup nodup, List.length_map]

omit [DecidableEq K] in
/-- The private `update` on a slot in use. -/
theorem update_cases (sized : Slots.Sized capacity recordSize memory.slots) {index : Nat}
    (used : memory.slots.Occupied index) (written : T) :
    (∃ e, Records.accept codec recordSize written = .error e ∧
      Table.update codec memory index written = (.error e, memory)) ∨
    (Records.accept codec recordSize written = .ok () ∧ ∃ bytes slots,
      Table.update codec memory index written = (.ok (), { memory with slots }) ∧
      codec.encode written = .ok bytes ∧ Slots.Updated memory.slots index bytes slots) := by
  cases encoded : codec.encode written with
  | error e =>
    exact .inl ⟨e, by simp only [Records.accept, encoded], by simp only [Table.update, encoded]⟩
  | ok bytes =>
    simp only [Records.accept, Table.update, encoded]
    obtain ⟨big, same⟩ | ⟨fits, slots, same, updated⟩ := sized.update_cases used bytes
    · refine .inl ⟨_, by rw [if_pos big], ?_⟩
      rw [same]
    · refine .inr ⟨by rw [if_neg (by omega)], bytes, slots, ?_, rfl, updated⟩
      rw [same]

namespace Holds

theorem header_capacity (holds : Holds table codec capacity recordSize memory records) :
    memory.header.capacity = capacity := by
  rw [holds.header]
  rfl

theorem card_le (holds : Holds table codec capacity recordSize memory records) :
    records.keys.card ≤ capacity := by
  rw [← holds.count, ← holds.slots.capacity]
  exact holds.slots.wellFormed.count_le

theorem lookup_eq (holds : Holds table codec capacity recordSize memory records)
    (buckets : 0 < table.primaryKeys.totalBuckets) (key : K) :
    table.primaryKeys.get memory.index key = some ((records.lookup key).map Prod.fst) := by
  obtain ⟨entries, refines, _, agree⟩ := holds.indexed
  rw [refines.get_eq buckets, agree]

theorem get_eq (holds : Holds table codec capacity recordSize memory records) {key : K}
    {index : Nat} {record : T} (found : records.lookup key = some (index, record)) :
    Table.get codec memory index = .ok (some record) := by
  obtain ⟨⟨bound, _⟩, decoded⟩ := holds.stored found
  have bound : ¬ memory.header.capacity ≤ index := by
    rw [holds.header_capacity, ← holds.slots.capacity]
    omega
  simp only [Table.get, ge_iff_le, bound, if_false, decoded, Except.map]

theorem lockRecord (holds : Holds table codec capacity recordSize memory records)
    (serves : table.Serves capacity) {key : K} {index : Nat} {record : T}
    (found : records.lookup key = some (index, record)) :
    table.semaphores.lockRecord (fun _ => .ok ()) index = .ok () := by
  obtain ⟨semId, same⟩ := serves.semaphores
  have bound := (holds.stored found).1.1
  rw [holds.slots.capacity] at bound
  rw [same]
  exact SemaphoreSet.lockRecord_ok _ bound rfl

/-- A new table holds the empty map. -/
theorem of_create [Inhabited K] (layout : NodeLayout K B) (hasher : K → Nat) (semId : Nat)
    (data : Nat → Slot UInt8) (nodes : Nat → Slot B)
    (small : Slots.slotMetadataSize + recordSize < usizeModulus) :
    Holds (handle layout hasher semId capacity) codec capacity recordSize
      (createWithSize layout hasher semId capacity recordSize data nodes).2 (∅ : Records K T) where
  header := rfl
  slots := Slots.new_sized data capacity small
  indexed := ⟨[], Index.newBlock_refines _ capacity nodes, List.nodup_nil, fun _ => rfl⟩
  stored := by simp
  distinct := by simp
  count := by
    change (Slots.new data capacity recordSize).header.count = _
    rw [Slots.new_header]
    rfl

/-! ### Replacing a record -/

theorem replace (holds : Holds table codec capacity recordSize memory records) {key : K}
    {index : Nat} {record written : T} {bytes : List UInt8} {slots : Slots UInt8}
    (found : records.lookup key = some (index, record)) (encoded : codec.encode written = .ok bytes)
    (updated : Slots.Updated memory.slots index bytes slots) :
    Holds table codec capacity recordSize { memory with slots }
      (records.insert key (index, written)) := by
  have occupied := (holds.stored found).1
  have keys : (records.insert key (index, written)).keys = records.keys := by
    ext other
    simp only [Finmap.mem_keys, Finmap.mem_insert, or_iff_right_iff_imp]
    rintro rfl
    exact Finmap.mem_of_lookup_eq_some found
  have indices : ∀ other, ((records.insert key (index, written)).lookup other).map Prod.fst =
      (records.lookup other).map Prod.fst := by
    intro other
    by_cases same : other = key
    · subst same
      rw [Finmap.lookup_insert, found]
      rfl
    · rw [Finmap.lookup_insert_of_ne _ same]
  obtain ⟨entries, refines, nodup, agree⟩ := holds.indexed
  refine ⟨holds.header, updated.sized holds.slots,
    ⟨entries, refines, nodup, fun other => (agree other).trans (indices other).symm⟩, ?_, ?_, ?_⟩
  · intro other i stored lookup
    by_cases same : other = key
    · subst same
      rw [Finmap.lookup_insert] at lookup
      cases lookup
      refine ⟨(updated.occupied_iff occupied).mpr occupied, ?_⟩
      simp only [updated.stored, codec.decode_encode encoded]
    · rw [Finmap.lookup_insert_of_ne _ same] at lookup
      have apart : i ≠ index := by
        rintro rfl
        exact same (holds.distinct lookup found)
      obtain ⟨used, decoded⟩ := holds.stored lookup
      refine ⟨(updated.occupied_iff occupied).mpr used, ?_⟩
      rwa [Slots.get_congr (updated.others i apart)]
  · intro first second i stored stored' lookup lookup'
    have old : ∀ other value, (records.insert key (index, written)).lookup other = some (i, value) →
        ∃ value', records.lookup other = some (i, value') := by
      intro other value lookup
      have := indices other
      rw [lookup] at this
      obtain ⟨⟨_, value'⟩, before, rfl⟩ := Option.map_eq_some_iff.mp this.symm
      exact ⟨value', before⟩
    obtain ⟨_, lookup⟩ := old first _ lookup
    obtain ⟨_, lookup'⟩ := old second _ lookup'
    exact holds.distinct lookup lookup'
  · rw [keys, ← holds.count, updated.header]

/-- The private `update` on the slot of a live record. -/
theorem update_cases (holds : Holds table codec capacity recordSize memory records) {key : K}
    {index : Nat} {record : T} (found : records.lookup key = some (index, record)) (written : T) :
    (∃ e, Records.accept codec recordSize written = .error e ∧
      Table.update codec memory index written = (.error e, memory)) ∨
    (Records.accept codec recordSize written = .ok () ∧ ∃ after,
      Table.update codec memory index written = (.ok (), after) ∧
      Holds table codec capacity recordSize after (records.insert key (index, written))) := by
  obtain refused | ⟨accepted, bytes, slots, same, encoded, updated⟩ :=
    Table.update_cases holds.slots (holds.stored found).1 written
  · exact .inl refused
  · exact .inr ⟨accepted, _, same, holds.replace found encoded updated⟩

theorem updateWithLock (holds : Holds table codec capacity recordSize memory records)
    (serves : table.Serves capacity) [TableRecord T K] (key : K) (f : T → R × T) :
    ∃ result after records',
      table.updateWithLock codec (fun _ => .ok ()) memory key f = some (result, after) ∧
      Records.Answers codec capacity recordSize records (.updateWithLock key f)
        (.updated result) records' ∧
      Holds table codec capacity recordSize after records' := by
  cases found : records.lookup key with
  | none =>
    refine ⟨.ok none, memory, records, ?_, .skipped (Finmap.lookup_eq_none.mp found), holds⟩
    simp [Table.updateWithLock, holds.lookup_eq serves.buckets, found]
  | some entry =>
    obtain ⟨index, record⟩ := entry
    have position := holds.lookup_eq serves.buckets key
    have locked := holds.lockRecord serves found
    have read := holds.get_eq found
    obtain ⟨e, refused, same⟩ | ⟨accepted, after, same, held⟩ :=
      holds.update_cases found (f record).2
    · refine ⟨.error e, memory, records, ?_, .rejected found refused, holds⟩
      simp [Table.updateWithLock, position, found, locked, read, same]
    · refine ⟨.ok (some (f record).1), after, _, ?_, .updated found accepted, held⟩
      simp [Table.updateWithLock, position, found, locked, read, same]

theorem updateMany (holds : Holds table codec capacity recordSize memory records)
    (serves : table.Serves capacity) (updater : T → T) (keys : List K) (found : Nat) :
    ∃ after,
      table.updateMany codec (fun _ => .ok ()) updater memory keys found =
        some ((Records.updateMany codec recordSize updater records keys found).1, after) ∧
      Holds table codec capacity recordSize after
        (Records.updateMany codec recordSize updater records keys found).2 := by
  induction keys generalizing memory records found with
  | nil => exact ⟨memory, rfl, holds⟩
  | cons key keys ih =>
    cases lookup : records.lookup key with
    | none =>
      obtain ⟨after, same, held⟩ := ih holds found
      refine ⟨after, ?_, ?_⟩
      · simp [Table.updateMany, Records.updateMany, holds.lookup_eq serves.buckets, lookup, same]
      · simpa only [Records.updateMany, lookup] using held
    | some entry =>
      obtain ⟨index, record⟩ := entry
      have position := holds.lookup_eq serves.buckets key
      have locked := holds.lockRecord serves lookup
      have read := holds.get_eq lookup
      obtain ⟨e, refused, same⟩ | ⟨accepted, after, same, held⟩ :=
        holds.update_cases lookup (updater record)
      · refine ⟨memory, ?_, ?_⟩
        · simp [Table.updateMany, position, locked, read, same, Records.updateMany, lookup, refused]
        · simpa only [Records.updateMany, lookup, refused] using holds
      · obtain ⟨last, same', held'⟩ := ih held (found + 1)
        refine ⟨last, ?_, ?_⟩
        · simp [Table.updateMany, position, locked, read, same, same', Records.updateMany, lookup,
            accepted]
        · simpa only [Records.updateMany, lookup, accepted] using held'

/-! ### Insertion -/

/-- A slot that no live record uses becomes the slot of a new key. -/
theorem extend (holds : Holds table codec capacity recordSize memory records)
    (serves : table.Serves capacity) {key : K} {index : Nat} {record : T} {bytes : List UInt8}
    {slots : Slots UInt8} (absent : key ∉ records) (encoded : codec.encode record = .ok bytes)
    (inserted : Slots.Inserted memory.slots index bytes slots) :
    ∃ block, table.primaryKeys.insert memory.index key index = some (.ok (), block) ∧
      Holds table codec capacity recordSize { memory with slots, index := block }
        (records.insert key (index, record)) := by
  obtain ⟨entries, refines, nodup, agree⟩ := holds.indexed
  have missing : records.lookup key = none := Finmap.lookup_eq_none.mpr absent
  have fresh : FifoMultimap.get entries key = none := by rw [agree, missing]; rfl
  have apart : ∀ {other i value}, records.lookup other = some (i, value) →
      other ≠ key ∧ i ≠ index := by
    intro other i value lookup
    constructor
    · rintro rfl
      rw [missing] at lookup
      contradiction
    · rintro rfl
      exact (holds.stored lookup).1.not_free inserted.wasFree
  have card : (records.insert key (index, record)).keys.card = records.keys.card + 1 := by
    have keys : (records.insert key (index, record)).keys = Insert.insert key records.keys := by
      ext other
      simp [Finmap.mem_keys, Finmap.mem_insert]
    rw [keys, Finset.card_insert_of_notMem (by rwa [Finmap.mem_keys])]
  have room : entries.length < capacity := by
    have grown := inserted.wellFormed.count_le
    rw [inserted.count, inserted.capacity, holds.slots.capacity, holds.count,
      card_keys nodup agree] at grown
    omega
  obtain ⟨block, same, refined⟩ := refines.insert_ok serves.buckets key index room
  refine ⟨block, same, holds.header, inserted.sized holds.slots,
    ⟨_, refined, ?_, ?_⟩, ?_, ?_, ?_⟩
  · exact FifoMultimap.nodup_append nodup fresh
  · intro other
    by_cases same : other = key
    · subst same
      rw [FifoMultimap.get_append, fresh, Finmap.lookup_insert]
      simp
    · rw [FifoMultimap.get_append_other (Ne.symm same), agree, Finmap.lookup_insert_of_ne _ same]
  · intro other i value lookup
    by_cases same : other = key
    · subst same
      rw [Finmap.lookup_insert] at lookup
      cases lookup
      exact ⟨inserted.occupied, by simp only [inserted.stored, codec.decode_encode encoded]⟩
    · rw [Finmap.lookup_insert_of_ne _ same] at lookup
      obtain ⟨used, decoded⟩ := holds.stored lookup
      refine ⟨inserted.occupied_iff.mpr (.inl used), ?_⟩
      rwa [Slots.get_congr (inserted.others i (apart lookup).2)]
  · intro first second i value value' lookup lookup'
    by_cases same : first = key
    · by_cases same' : second = key
      · exact same.trans same'.symm
      · subst same
        rw [Finmap.lookup_insert] at lookup
        cases lookup
        rw [Finmap.lookup_insert_of_ne _ same'] at lookup'
        exact absurd rfl (apart lookup').2
    · rw [Finmap.lookup_insert_of_ne _ same] at lookup
      by_cases same' : second = key
      · subst same'
        rw [Finmap.lookup_insert] at lookup'
        cases lookup'
        exact absurd rfl (apart lookup).2
      · rw [Finmap.lookup_insert_of_ne _ same'] at lookup'
        exact holds.distinct lookup lookup'
  · rw [card, ← holds.count]
    exact inserted.count

theorem unused_of_inserted (holds : Holds table codec capacity recordSize memory records)
    {index : Nat} {bytes : List UInt8} {slots : Slots UInt8}
    (inserted : Slots.Inserted memory.slots index bytes slots) :
    records.Unused capacity index := by
  refine ⟨?_, ?_⟩
  · have bound := inserted.wasFree.1
    rwa [holds.slots.capacity] at bound
  · rintro key ⟨i, record⟩ lookup rfl
    exact (holds.stored lookup).1.not_free inserted.wasFree

theorem insert [TableRecord T K] (holds : Holds table codec capacity recordSize memory records)
    (serves : table.Serves capacity) (record : T) :
    ∃ result after records',
      table.insert codec (fun _ => .ok ()) memory record = some (result, after) ∧
      Records.Answers (R := R) codec capacity recordSize records (.insert record)
        (.inserted result) records' ∧
      Holds table codec capacity recordSize after records' := by
  cases found : records.lookup (TableRecord.key record) with
  | some entry =>
    refine ⟨.error .recordDuplicated, memory, records, ?_,
      .duplicated (Finmap.mem_of_lookup_eq_some found), holds⟩
    simp [Table.insert, holds.lookup_eq serves.buckets, found]
  | none =>
    have absent : TableRecord.key record ∉ records := Finmap.lookup_eq_none.mp found
    cases encoded : codec.encode record with
    | error e =>
      refine ⟨.error e, memory, records, ?_, .refused absent ?_, holds⟩
      · simp [Table.insert, holds.lookup_eq serves.buckets, found, encoded,
          table.semaphores.lockTable_ok (fun _ => .ok ()) rfl]
      · simp only [Records.acceptNew, encoded]
    | ok bytes =>
      have call := holds.lookup_eq serves.buckets (TableRecord.key record)
      have locked := table.semaphores.lockTable_ok (fun _ => .ok ()) rfl
      have limit := holds.card_le
      obtain ⟨full, same⟩ | ⟨room, big, same⟩ | ⟨room, fits, index, slots, same, inserted⟩ :=
        holds.slots.insert_cases bytes
      · rw [holds.count] at full same
        have card : records.keys.card = capacity := by omega
        rw [card] at same
        refine ⟨.error (.tableFull capacity capacity), memory, records,
          by simp [Table.insert, call, found, locked, encoded, same], .refused absent ?_, holds⟩
        simp only [Records.acceptNew, encoded, card, if_true]
      · rw [holds.count] at room
        refine ⟨.error (.recordSizeTooBig bytes.length recordSize), memory, records,
          by simp [Table.insert, call, found, locked, encoded, same], .refused absent ?_, holds⟩
        simp only [Records.acceptNew, Records.accept, encoded, Nat.ne_of_lt room, if_false, gt_iff_lt,
          big, if_true]
      · rw [holds.count] at room
        obtain ⟨block, linked, held⟩ := holds.extend serves absent encoded inserted
        refine ⟨.ok index, _, _,
          by simp [Table.insert, call, found, locked, encoded, same, linked],
          .inserted absent ?_ (holds.unused_of_inserted inserted), held⟩
        simp only [Records.acceptNew, Records.accept, encoded, Nat.ne_of_lt room, if_false, gt_iff_lt,
          Nat.not_lt.mpr fits]

/-! ### Lookup and removal -/

theorem find (holds : Holds table codec capacity recordSize memory records)
    (serves : table.Serves capacity) (key : K) :
    table.find codec memory key = some (.ok ((records.lookup key).map Prod.snd)) := by
  cases found : records.lookup key with
  | none => simp [Table.find, holds.lookup_eq serves.buckets, found]
  | some entry =>
    obtain ⟨index, record⟩ := entry
    simp [Table.find, holds.lookup_eq serves.buckets, found, holds.get_eq found]

theorem remove (holds : Holds table codec capacity recordSize memory records)
    (serves : table.Serves capacity) (key : K) :
    ∃ after, table.remove (fun _ => .ok ()) memory key = some (.ok (), after) ∧
      Holds table codec capacity recordSize after (records.erase key) := by
  cases found : records.lookup key with
  | none =>
    have absent : key ∉ records := Finmap.lookup_eq_none.mp found
    have same : records.erase key = records := by
      apply Finmap.ext_lookup
      intro other
      by_cases same : other = key
      · subst same
        rw [Finmap.lookup_erase, found]
      · exact Finmap.lookup_erase_ne same
    refine ⟨memory, ?_, by rwa [same]⟩
    simp [Table.remove, holds.lookup_eq serves.buckets, found]
  | some entry =>
    obtain ⟨index, record⟩ := entry
    obtain ⟨entries, refines, nodup, agree⟩ := holds.indexed
    obtain ⟨block, unlinked, refined⟩ := refines.remove_ok serves.buckets key
    have removed := holds.slots.wellFormed.remove_ok (holds.stored found).1
    have apart : ∀ {other i value}, (records.erase key).lookup other = some (i, value) →
        records.lookup other = some (i, value) ∧ i ≠ index := by
      intro other i value lookup
      by_cases same : other = key
      · subst same
        rw [Finmap.lookup_erase] at lookup
        contradiction
      · rw [Finmap.lookup_erase_ne same] at lookup
        refine ⟨lookup, ?_⟩
        rintro rfl
        exact same (holds.distinct lookup found)
    refine ⟨{ memory with slots := memory.slots.remove index, index := block }, ?_,
      holds.header, removed.sized holds.slots, ⟨_, refined, ?_, ?_⟩, ?_, ?_, ?_⟩
    · simp [Table.remove, holds.lookup_eq serves.buckets, found, holds.lockRecord serves found,
        unlinked]
    · exact nodup.sublist (List.eraseP_sublist.map Prod.fst)
    · intro other
      by_cases same : other = key
      · subst same
        rw [FifoMultimap.get_remove_self nodup, Finmap.lookup_erase]
        rfl
      · rw [FifoMultimap.get_remove_other (Ne.symm same), agree, Finmap.lookup_erase_ne same]
    · intro other i value lookup
      obtain ⟨before, different⟩ := apart lookup
      obtain ⟨used, decoded⟩ := holds.stored before
      refine ⟨removed.occupied_iff.mpr ⟨used, different⟩, ?_⟩
      rwa [Slots.get_congr (removed.others i different)]
    · intro first second i value value' lookup lookup'
      exact holds.distinct (apart lookup).1 (apart lookup').1
    · have positive : 0 < records.keys.card :=
        Finset.card_pos.mpr ⟨key, Finmap.mem_keys.mpr (Finmap.mem_of_lookup_eq_some found)⟩
      have count := removed.count
      rw [holds.count] at count
      rw [Finmap.keys_erase, Finset.card_erase_of_mem
        (Finmap.mem_keys.mpr (Finmap.mem_of_lookup_eq_some found))]
      change (memory.slots.remove index).header.count = _
      omega

/-- Every call on a table that holds a map returns, answers from the map and
leaves the table with the map that the answer prescribes. -/
theorem run [TableRecord T K] (holds : Holds table codec capacity recordSize memory records)
    (serves : table.Serves capacity) (operation : Operation K T R) :
    ∃ reply after records',
      table.run codec (fun _ => .ok ()) memory operation = some (reply, after) ∧
      Records.Answers codec capacity recordSize records operation reply records' ∧
      Holds table codec capacity recordSize after records' := by
  cases operation with
  | insert record =>
    obtain ⟨result, after, records', same, answers, held⟩ := holds.insert serves record
    exact ⟨_, after, records', by simp only [Table.run, same]; rfl, answers, held⟩
  | find key =>
    exact ⟨_, memory, records, by simp only [Table.run, holds.find serves key]; rfl, .found key, holds⟩
  | updateWithLock key f =>
    obtain ⟨result, after, records', same, answers, held⟩ := holds.updateWithLock serves key f
    exact ⟨_, after, records', by simp only [Table.run, same]; rfl, answers, held⟩
  | remove key =>
    obtain ⟨after, same, held⟩ := holds.remove serves key
    exact ⟨_, after, _, by simp only [Table.run, same]; rfl, .removed key, held⟩
  | updateMany keys updater =>
    obtain ⟨after, same, held⟩ := holds.updateMany serves updater keys 0
    exact ⟨_, after, _, by simp only [Table.run, same]; rfl, .updatedMany keys updater, held⟩

/-- Calls that keep the keys leave every record under its own key. -/
theorem runAll [TableRecord T K] (holds : Holds table codec capacity recordSize memory records)
    (serves : table.Serves capacity) (keyed : records.Keyed) (operations : List (Operation K T R))
    (keeps : ∀ operation ∈ operations, operation.KeepsKey) :
    ∃ records', Holds table codec capacity recordSize (table.runAll codec memory operations)
      records' ∧ records'.Keyed := by
  induction operations generalizing memory records with
  | nil => exact ⟨records, holds, keyed⟩
  | cons operation rest ih =>
    obtain ⟨reply, after, records', answered, answers, held⟩ := holds.run serves operation
    obtain ⟨keepsFirst, keepsRest⟩ := List.forall_mem_cons.mp keeps
    rw [Table.runAll, List.foldl_cons, answered]
    exact ih held (answers.keyed keepsFirst keyed) keepsRest

end Holds
end Table
end InMemoryTable
