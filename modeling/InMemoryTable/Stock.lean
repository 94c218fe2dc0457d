import InMemoryTable.Instants
import InMemoryTable.TableInvariant

/-! A bounded map some of whose slots are lost: a process stored a record and died
before its key was in the index. No call ever uses such a slot again. -/
namespace InMemoryTable
open Linearization

variable {K T R B : Type}

/-- An update keeps the keys of the records. -/
theorem Records.keys_insert_present [DecidableEq K] (records : Records K T) {key : K}
    {entry : Nat × T} (found : records.lookup key = some entry) (written : Nat × T) :
    (records.insert key written).keys = records.keys := by
  ext other
  simp only [Finmap.mem_keys, Finmap.mem_insert, or_iff_right_iff_imp]
  rintro rfl
  exact Finmap.mem_of_lookup_eq_some found

/-- An entry after an insertion is the new one, or it was there before. -/
theorem Records.lookup_insert_cases [DecidableEq K] {records : Records K T} {key other : K}
    {entry found : Nat × T} (lookup : (records.insert key entry).lookup other = some found) :
    (other = key ∧ found = entry) ∨ (other ≠ key ∧ records.lookup other = some found) := by
  by_cases here : other = key
  · subst here
    rw [Finmap.lookup_insert] at lookup
    cases lookup
    exact .inl ⟨rfl, rfl⟩
  · rw [Finmap.lookup_insert_of_ne _ here] at lookup
    exact .inr ⟨here, lookup⟩

/-- The map, and the slots that are in use without a record of the map. -/
structure Stock (K T : Type) where
  records : Records K T
  lost : Finset Nat

namespace Stock

def lose (stock : Stock K T) (index : Nat) : Stock K T :=
  { stock with lost := insert index stock.lost }

/-- The slot of a record that is stored and not linked is in use as well. -/
def filled (stock : Stock K T) : Option (T × Nat) → Stock K T
  | none => stock
  | some (_, index) => stock.lose index

theorem filled_records (stock : Stock K T) (entry : Option (T × Nat)) :
    (stock.filled entry).records = stock.records := by
  cases entry <;> rfl

variable [DecidableEq K] (codec : Bincode T) (capacity recordSize : Nat)

/-- The checks of an insertion; a lost slot counts like a record. -/
def acceptNew (stock : Stock K T) (record : T) : Except InMemoryTableError Unit :=
  match codec.encode record with
  | .error e => .error e
  | .ok _ =>
    if stock.records.keys.card + stock.lost.card = capacity then
      .error (.tableFull capacity capacity)
    else Records.accept codec recordSize record

/-- An index that no record and no lost slot has. -/
def Unused (stock : Stock K T) (index : Nat) : Prop :=
  stock.records.Unused capacity index ∧ index ∉ stock.lost

/-- The instant at which a call, or `update_many` for one key, takes effect. -/
inductive Instant [TableRecord T K] (stock : Stock K T) :
    Request K T R → Records K T → After K T R → Prop where
  | duplicated {record : T} : TableRecord.key record ∈ stock.records →
      Instant stock (.insert record) stock.records
        (.reply (.insert record) (.inserted (.error .recordDuplicated)))
  | refused {record : T} {e : InMemoryTableError} : TableRecord.key record ∉ stock.records →
      stock.acceptNew codec capacity recordSize record = .error e →
      Instant stock (.insert record) stock.records
        (.reply (.insert record) (.inserted (.error e)))
  | inserted {record : T} {index : Nat} : TableRecord.key record ∉ stock.records →
      stock.acceptNew codec capacity recordSize record = .ok () → stock.Unused capacity index →
      Instant stock (.insert record)
        (stock.records.insert (TableRecord.key record) (index, record))
        (.reply (.insert record) (.inserted (.ok index)))
  | find (key : K) : Instant stock (.find key) stock.records
      (.reply (.find key) (.found (.ok (stock.records.under key))))
  | skip {change : Update K T R} : change.key ∉ stock.records →
      Instant stock (.update change) stock.records change.skipped
  | refuse {change : Update K T R} {index : Nat} {record : T} {e : InMemoryTableError} :
      stock.records.lookup change.key = some (index, record) →
      Records.accept codec recordSize (change.apply record) = .error e →
      Instant stock (.update change) stock.records (change.failed e)
  | update {change : Update K T R} {index : Nat} {record : T} :
      stock.records.lookup change.key = some (index, record) →
      Records.accept codec recordSize (change.apply record) = .ok () →
      Instant stock (.update change)
        (stock.records.insert change.key (index, change.apply record)) (change.completed record)

/-- The bounded map as an object that processes share: no call loses a slot, and the
death of a process loses one at most, in an insertion that was going to succeed. -/
def object [TableRecord T K] :
    FragileObject (Stock K T) (Request K T R) (Operation K T R) (Reply T R) where
  start := Operation.place
  effect stock request later place := ∃ records after,
    stock.Instant codec capacity recordSize request records after ∧
      later = { stock with records } ∧ place = after.place
  dies stock place later := later = stock ∨ ∃ record index, place = .running (.insert record) ∧
    TableRecord.key record ∉ stock.records ∧
    stock.acceptNew codec capacity recordSize record = .ok () ∧ stock.Unused capacity index ∧
    later = stock.lose index

variable {codec capacity recordSize} {records later : Records K T}

/-- As long as nothing is lost, the calls are those of the map. -/
theorem Instant.of_nothing [TableRecord T K] {request : Request K T R} {after : After K T R}
    (instant : (⟨records, ∅⟩ : Stock K T).Instant codec capacity recordSize request later after) :
    records.Instant codec capacity recordSize request later after := by
  cases instant with
  | duplicated present => exact .insert (.duplicated present)
  | refused absent refused => exact .insert (.refused absent refused)
  | inserted absent accepted unused => exact .insert (.inserted absent accepted unused.1)
  | find key => exact .find (.found key)
  | skip absent => exact .skip absent
  | refuse lookup refused => exact .refuse lookup refused
  | update lookup accepted => exact .update lookup accepted

theorem sees_of_nothing [TableRecord T K] {place next : CallPlace K T R}
    {shown : Option (Operation K T R × Option (Reply T R))}
    (sees : (object codec capacity recordSize).toObject.Sees (⟨records, ∅⟩ : Stock K T) place shown
      ⟨later, ∅⟩ next) :
    (Records.object codec capacity recordSize).Sees records place shown later next := by
  cases sees with
  | nothing same still =>
    cases same
    exact .nothing rfl still
  | moment moves =>
    cases moves with
    | called operation => exact .moment (.called operation)
    | effect takes =>
      obtain ⟨records', after, instant, same, rfl⟩ := takes
      cases same
      exact .moment (.effect ⟨after, instant.of_nothing, rfl⟩)
    | replied => exact .moment .replied

end Stock

/-! ### The memory of a table with lost slots -/

variable [DecidableEq K] {table : Table K B} {codec : Bincode T} {capacity recordSize : Nat}
  {memory : TableMemory B} {stock : Stock K T} {records : Records K T}

/-- The index maps the keys of the records to their slots; the lost slots are in use. -/
structure Table.Stocked (table : Table K B) (codec : Bincode T) (capacity recordSize : Nat)
    (memory : TableMemory B) (stock : Stock K T) : Prop where
  header : memory.header = .new capacity
  slots : Slots.Sized capacity recordSize memory.slots
  indexed : ∃ entries, table.primaryKeys.Refines capacity memory.index entries ∧
    (entries.map Prod.fst).Nodup ∧
    ∀ key, FifoMultimap.get entries key = (stock.records.lookup key).map Prod.fst
  stored : ∀ {key index record}, stock.records.lookup key = some (index, record) →
    memory.slots.Occupied index ∧ codec.decode (memory.slots.get index) = .ok record
  distinct : ∀ {first second index record record'},
    stock.records.lookup first = some (index, record) →
    stock.records.lookup second = some (index, record') → first = second
  lost : ∀ index ∈ stock.lost, memory.slots.Occupied index
  apart : ∀ {key index record}, stock.records.lookup key = some (index, record) →
    index ∉ stock.lost
  count : memory.slots.header.count = stock.records.keys.card + stock.lost.card

theorem Table.Holds.stocked
    (holds : table.Holds codec capacity recordSize memory records) :
    table.Stocked codec capacity recordSize memory ⟨records, ∅⟩ where
  header := holds.header
  slots := holds.slots
  indexed := holds.indexed
  stored := holds.stored
  distinct := holds.distinct
  lost _ member := absurd member (Finset.notMem_empty _)
  apart _ := Finset.notMem_empty _
  count := holds.count

namespace Table.Stocked

theorem holds (stocked : table.Stocked codec capacity recordSize memory ⟨records, ∅⟩) :
    table.Holds codec capacity recordSize memory records where
  header := stocked.header
  slots := stocked.slots
  indexed := stocked.indexed
  stored := stocked.stored
  distinct := stocked.distinct
  count := stocked.count

theorem card_le (stocked : table.Stocked codec capacity recordSize memory stock) :
    stock.records.keys.card + stock.lost.card ≤ capacity := by
  rw [← stocked.count, ← stocked.slots.capacity]
  exact stocked.slots.wellFormed.count_le

theorem lookup_eq (stocked : table.Stocked codec capacity recordSize memory stock)
    (serves : table.Serves capacity) (key : K) :
    table.primaryKeys.get memory.index key = some ((stock.records.lookup key).map Prod.fst) := by
  obtain ⟨entries, refines, _, agree⟩ := stocked.indexed
  rw [refines.get_eq serves.buckets, agree]

theorem lt_capacity (stocked : table.Stocked codec capacity recordSize memory stock) {key : K}
    {index : Nat} {record : T} (found : stock.records.lookup key = some (index, record)) :
    index < capacity := by
  rw [← stocked.slots.capacity]
  exact (stocked.stored found).1.1

theorem get_eq (stocked : table.Stocked codec capacity recordSize memory stock) {key : K}
    {index : Nat} {record : T} (found : stock.records.lookup key = some (index, record)) :
    Table.get codec memory index = .ok (some record) := by
  have bound : ¬ memory.header.capacity ≤ index := by
    rw [stocked.header]
    exact Nat.not_le.mpr (stocked.lt_capacity found)
  simp only [Table.get, ge_iff_le, bound, if_false, (stocked.stored found).2, Except.map]

/-- The private `update` on the slot of a record; the lost slots keep their bytes. -/
theorem update_cases (stocked : table.Stocked codec capacity recordSize memory stock) {key : K}
    {index : Nat} {record : T} (found : stock.records.lookup key = some (index, record))
    (written : T) :
    (∃ e, Records.accept codec recordSize written = .error e ∧
      Table.update codec memory index written = (.error e, memory)) ∨
    (Records.accept codec recordSize written = .ok () ∧ ∃ after,
      Table.update codec memory index written = (.ok (), after) ∧
      (∀ i ∈ stock.lost, after.slots.get i = memory.slots.get i) ∧
      table.Stocked codec capacity recordSize after
        { stock with records := stock.records.insert key (index, written) }) := by
  have occupied := (stocked.stored found).1
  obtain refused | ⟨accepted, bytes, slots, same, encoded, updated⟩ :=
    Table.update_cases stocked.slots occupied written
  · exact .inl refused
  have slot_of : ∀ {other i value},
      (stock.records.insert key (index, written)).lookup other = some (i, value) →
      ∃ value', stock.records.lookup other = some (i, value') := by
    intro other i value lookup
    rcases Records.lookup_insert_cases lookup with ⟨rfl, same⟩ | ⟨_, lookup⟩
    · cases same
      exact ⟨record, found⟩
    · exact ⟨value, lookup⟩
  refine .inr ⟨accepted, _, same, fun i lost => ?_, stocked.header, updated.sized stocked.slots,
    ?_, ?_, ?_, ?_, ?_, ?_⟩
  · exact Slots.get_congr (updated.others i (fun here => stocked.apart found (here ▸ lost)))
  · obtain ⟨entries, refines, nodup, agree⟩ := stocked.indexed
    refine ⟨entries, refines, nodup, fun other => (agree other).trans ?_⟩
    by_cases here : other = key
    · subst here
      rw [found, Finmap.lookup_insert]
      rfl
    · rw [Finmap.lookup_insert_of_ne _ here]
  · intro other i value lookup
    rcases Records.lookup_insert_cases lookup with ⟨rfl, same⟩ | ⟨here, before⟩
    · cases same
      exact ⟨updated.occupied, by rw [updated.stored, codec.decode_encode encoded]⟩
    · obtain ⟨used, decoded⟩ := stocked.stored before
      refine ⟨(updated.occupied_iff occupied).mpr used, ?_⟩
      have different : i ≠ index := by
        rintro rfl
        exact here (stocked.distinct before found)
      rwa [Slots.get_congr (updated.others i different)]
  · intro first second i value value' lookup lookup'
    obtain ⟨_, lookup⟩ := slot_of lookup
    obtain ⟨_, lookup'⟩ := slot_of lookup'
    exact stocked.distinct lookup lookup'
  · exact fun i lost => (updated.occupied_iff occupied).mpr (stocked.lost i lost)
  · intro other i value lookup
    obtain ⟨_, lookup⟩ := slot_of lookup
    exact stocked.apart lookup
  · rw [stock.records.keys_insert_present found, ← stocked.count, updated.header]

/-- The slots take a record exactly if the checks of the insertion do. -/
theorem insert_cases (stocked : table.Stocked codec capacity recordSize memory stock) {record : T}
    {data : List UInt8} (encoded : codec.encode record = .ok data) :
    (∃ e, stock.acceptNew codec capacity recordSize record = .error e ∧
      memory.slots.insert data = (.error e, memory.slots)) ∨
    (stock.acceptNew codec capacity recordSize record = .ok () ∧ ∃ index slots,
      memory.slots.insert data = (.ok index, slots) ∧
      Slots.Inserted memory.slots index data slots) := by
  have limit := stocked.card_le
  have count := stocked.count
  obtain ⟨full, same⟩ | ⟨room, big, same⟩ | ⟨room, fits, index, slots, same, inserted⟩ :=
    stocked.slots.insert_cases data
  · have card : stock.records.keys.card + stock.lost.card = capacity := by omega
    rw [count, card] at same
    exact .inl ⟨_, by simp only [Stock.acceptNew, encoded, card, if_true], same⟩
  · rw [count] at room
    refine .inl ⟨_, ?_, same⟩
    simp only [Stock.acceptNew, Records.accept, encoded, Nat.ne_of_lt room, if_false, gt_iff_lt,
      big, if_true]
  · rw [count] at room
    refine .inr ⟨?_, index, slots, same, inserted⟩
    simp only [Stock.acceptNew, Records.accept, encoded, Nat.ne_of_lt room, if_false, gt_iff_lt,
      Nat.not_lt.mpr fits]

/-- Storing a record uses up a slot. -/
theorem store (stocked : table.Stocked codec capacity recordSize memory stock) {index : Nat}
    {data : List UInt8} {slots : Slots UInt8}
    (inserted : Slots.Inserted memory.slots index data slots) :
    stock.Unused capacity index ∧
      table.Stocked codec capacity recordSize { memory with slots } (stock.lose index) := by
  have free : ∀ {i}, memory.slots.Occupied i → i ≠ index := by
    rintro i used rfl
    exact used.not_free inserted.wasFree
  have unlost : index ∉ stock.lost := fun member => free (stocked.lost index member) rfl
  refine ⟨⟨⟨?_, ?_⟩, unlost⟩, stocked.header, inserted.sized stocked.slots, stocked.indexed, ?_,
    stocked.distinct, ?_, ?_, ?_⟩
  · have bound := inserted.wasFree.1
    rwa [stocked.slots.capacity] at bound
  · rintro key ⟨i, record⟩ lookup
    exact free (stocked.stored lookup).1
  · intro key i record lookup
    obtain ⟨used, decoded⟩ := stocked.stored lookup
    refine ⟨inserted.occupied_iff.mpr (.inl used), ?_⟩
    rwa [Slots.get_congr (inserted.others i (free used))]
  · intro i member
    rcases Finset.mem_insert.mp member with rfl | member
    · exact inserted.occupied
    · exact inserted.occupied_iff.mpr (.inl (stocked.lost i member))
  · intro key i record lookup member
    rcases Finset.mem_insert.mp member with rfl | member
    · exact free (stocked.stored lookup).1 rfl
    · exact stocked.apart lookup member
  · have count := stocked.count
    simp only [Stock.lose, Finset.card_insert_of_notMem unlost, inserted.count]
    omega

/-- Linking a record that uses up a slot. -/
theorem link {index : Nat} {record : T} {key : K}
    (stocked : table.Stocked codec capacity recordSize memory (stock.lose index))
    (serves : table.Serves capacity) (unlost : index ∉ stock.lost) (absent : key ∉ stock.records)
    (decoded : codec.decode (memory.slots.get index) = .ok record) :
    ∃ block, table.primaryKeys.insert memory.index key index = some (.ok (), block) ∧
      table.Stocked codec capacity recordSize { memory with index := block }
        { stock with records := stock.records.insert key (index, record) } := by
  obtain ⟨entries, refines, nodup, agree⟩ : ∃ entries,
      table.primaryKeys.Refines capacity memory.index entries ∧ (entries.map Prod.fst).Nodup ∧
      ∀ key, FifoMultimap.get entries key = (stock.records.lookup key).map Prod.fst :=
    stocked.indexed
  have missing : stock.records.lookup key = none := Finmap.lookup_eq_none.mpr absent
  have fresh : FifoMultimap.get entries key = none := by
    rw [agree, missing]
    rfl
  have limit := stocked.card_le
  have count := stocked.count
  simp only [Stock.lose, Finset.card_insert_of_notMem unlost] at limit count
  have room : entries.length < capacity := by
    rw [← card_keys nodup agree]
    omega
  obtain ⟨block, linked, refined⟩ := refines.insert_ok serves.buckets key index room
  have cases_of : ∀ {other i value},
      (stock.records.insert key (index, record)).lookup other = some (i, value) →
      (other = key ∧ i = index ∧ value = record) ∨ stock.records.lookup other = some (i, value) := by
    intro other i value lookup
    rcases Records.lookup_insert_cases lookup with ⟨rfl, same⟩ | ⟨_, lookup⟩
    · cases same
      exact .inl ⟨rfl, rfl, rfl⟩
    · exact .inr lookup
  have elsewhere : ∀ {other i value}, stock.records.lookup other = some (i, value) → i ≠ index := by
    rintro other i value lookup rfl
    exact stocked.apart lookup (Finset.mem_insert_self _ _)
  refine ⟨block, linked, stocked.header, stocked.slots,
    ⟨_, refined, FifoMultimap.nodup_append nodup fresh, ?_⟩, ?_, ?_, ?_, ?_, ?_⟩
  · intro other
    by_cases here : other = key
    · subst here
      rw [FifoMultimap.get_append, fresh, Finmap.lookup_insert]
      simp
    · rw [FifoMultimap.get_append_other (Ne.symm here), agree, Finmap.lookup_insert_of_ne _ here]
  · intro other i value lookup
    obtain ⟨rfl, rfl, rfl⟩ | lookup := cases_of lookup
    · exact ⟨stocked.lost _ (Finset.mem_insert_self _ _), decoded⟩
    · exact stocked.stored lookup
  · intro first second i value value' lookup lookup'
    obtain ⟨same, here, _⟩ | before := cases_of lookup
    · obtain ⟨same', _, _⟩ | before' := cases_of lookup'
      · exact same.trans same'.symm
      · exact absurd here (elsewhere before')
    · obtain ⟨_, here, _⟩ | before' := cases_of lookup'
      · exact absurd here (elsewhere before)
      · exact stocked.distinct before before'
  · exact fun i lost => stocked.lost i (Finset.mem_insert_of_mem lost)
  · intro other i value lookup
    obtain ⟨rfl, rfl, rfl⟩ | lookup := cases_of lookup
    · exact unlost
    · exact fun lost => stocked.apart lookup (Finset.mem_insert_of_mem lost)
  · have keys : (stock.records.insert key (index, record)).keys =
        Insert.insert key stock.records.keys := by
      ext other
      simp [Finmap.mem_keys, Finmap.mem_insert]
    rw [keys, Finset.card_insert_of_notMem (by rwa [Finmap.mem_keys])]
    simp only [count]
    omega

end Table.Stocked

/-- The slots hold the record, if any, that is stored but not linked. -/
structure Table.Filling (table : Table K B) (codec : Bincode T) (capacity recordSize : Nat)
    (memory : TableMemory B) (stock : Stock K T) (filled : Option (T × Nat)) : Prop where
  stocked : table.Stocked codec capacity recordSize memory (stock.filled filled)
  unused : ∀ record index, filled = some (record, index) → stock.Unused capacity index
  stored : ∀ record index, filled = some (record, index) →
    codec.decode (memory.slots.get index) = .ok record
  accepted : ∀ record index, filled = some (record, index) →
    stock.acceptNew codec capacity recordSize record = .ok ()

namespace Table.Filling
variable {filled : Option (T × Nat)} {record : T} {index : Nat}

theorem of_stocked (stocked : table.Stocked codec capacity recordSize memory stock) :
    table.Filling codec capacity recordSize memory stock none where
  stocked := stocked
  unused _ _ none := by cases none
  stored _ _ none := by cases none
  accepted _ _ none := by cases none

theorem lookup_eq (filling : table.Filling codec capacity recordSize memory stock filled)
    (serves : table.Serves capacity) (key : K) :
    table.primaryKeys.get memory.index key = some ((stock.records.lookup key).map Prod.fst) := by
  have found := filling.stocked.lookup_eq serves key
  rwa [Stock.filled_records] at found

theorem get_eq (filling : table.Filling codec capacity recordSize memory stock filled) {key : K}
    (found : stock.records.lookup key = some (index, record)) :
    Table.get codec memory index = .ok (some record) :=
  filling.stocked.get_eq (by rwa [Stock.filled_records])

theorem lt_capacity (filling : table.Filling codec capacity recordSize memory stock filled)
    {key : K} (found : stock.records.lookup key = some (index, record)) : index < capacity :=
  filling.stocked.lt_capacity (by rwa [Stock.filled_records])

/-- The private `update` on the slot of a linked record. -/
theorem update_cases (filling : table.Filling codec capacity recordSize memory stock filled)
    {key : K} (found : stock.records.lookup key = some (index, record)) (written : T) :
    (∃ e, Records.accept codec recordSize written = .error e ∧
      Table.update codec memory index written = (.error e, memory)) ∨
    (Records.accept codec recordSize written = .ok () ∧ ∃ after,
      Table.update codec memory index written = (.ok (), after) ∧
      table.Filling codec capacity recordSize after
        { stock with records := stock.records.insert key (index, written) } filled) := by
  obtain refused | ⟨accepted, after, same, kept, stocked⟩ := filling.stocked.update_cases
    (show (stock.filled filled).records.lookup key = some (index, record) by
      rwa [Stock.filled_records]) written
  · exact .inl refused
  refine .inr ⟨accepted, after, same, ?_, ?_, ?_, ?_⟩
  · cases filled <;> exact stocked
  · intro other i entry
    obtain ⟨⟨bound, apart⟩, unlost⟩ := filling.unused other i entry
    refine ⟨⟨bound, fun key' value lookup => ?_⟩, unlost⟩
    rcases Records.lookup_insert_cases lookup with ⟨rfl, rfl⟩ | ⟨_, lookup⟩
    · exact apart key' (index, record) found
    · exact apart key' value lookup
  · rintro other i rfl
    rw [kept i (Finset.mem_insert_self _ _)]
    exact filling.stored other i rfl
  · intro other i entry
    have before := filling.accepted other i entry
    simp only [Stock.acceptNew, stock.records.keys_insert_present found] at before ⊢
    exact before

/-- The record is stored. -/
theorem store (filling : table.Filling codec capacity recordSize memory stock none)
    {data : List UInt8} {slots : Slots UInt8} (encoded : codec.encode record = .ok data)
    (stored : memory.slots.insert data = (.ok index, slots)) :
    table.Filling codec capacity recordSize { memory with slots } stock (some (record, index)) := by
  obtain ⟨_, _, same⟩ | ⟨accepted, _, _, same, inserted⟩ := filling.stocked.insert_cases encoded
  · cases same.symm.trans stored
  cases same.symm.trans stored
  obtain ⟨unused, stocked⟩ := filling.stocked.store inserted
  refine ⟨stocked, ?_, ?_, ?_⟩
  · rintro _ _ ⟨⟩
    exact unused
  · rintro _ _ ⟨⟩
    change codec.decode (slots.get index) = _
    rw [inserted.stored, codec.decode_encode encoded]
  · rintro _ _ ⟨⟩
    exact accepted

/-- The record that is stored is linked. -/
theorem link (filling : table.Filling codec capacity recordSize memory stock
      (some (record, index))) (serves : table.Serves capacity) {key : K}
    (absent : key ∉ stock.records) :
    ∃ block, table.primaryKeys.insert memory.index key index = some (.ok (), block) ∧
      table.Stocked codec capacity recordSize { memory with index := block }
        { stock with records := stock.records.insert key (index, record) } :=
  filling.stocked.link serves (filling.unused record index rfl).2 absent
    (filling.stored record index rfl)

/-- The process that stored the record dies. -/
theorem lose (filling : table.Filling codec capacity recordSize memory stock
      (some (record, index))) :
    table.Filling codec capacity recordSize memory (stock.lose index) none :=
  .of_stocked filling.stocked

end Table.Filling

end InMemoryTable
