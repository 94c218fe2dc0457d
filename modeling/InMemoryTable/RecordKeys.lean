import InMemoryTable.Linkage
import InMemoryTable.TableIteration

/-! The key of a record is stored twice, in the record and in the index node.
The closures of the update calls see only the record: as long as they give it
back with its key, the two agree after every sequence of calls. -/
namespace InMemoryTable
open Transition

variable {K T R B : Type} [DecidableEq K] [TableRecord T K]

/-- Every index entry names a record of its own key; so do lookups, and no two
records that `iter()` yields have the same key. -/
structure Table.OwnKeys (table : Table K B) (codec : Bincode T) (memory : TableMemory B) :
    Prop where
  indexed : ∀ {key position}, table.primaryKeys.Links memory.index key position →
    ∃ record, codec.decode (memory.slots.get position) = .ok record ∧ TableRecord.key record = key
  found : ∀ {key} {record : T}, table.find codec memory key = some (.ok (some record)) →
    TableRecord.key record = key
  iterated : ∃ records, Table.iter codec memory = some records ∧
    (records.map (TableRecord.key : T → K)).Nodup

/-- The record in the slot that the index names for a key. -/
def Table.recordUnder (table : Table K B) (codec : Bincode T) (memory : TableMemory B) (key : K) :
    Option T := do
  let position ← ← table.primaryKeys.get memory.index key
  (codec.decode (memory.slots.get position)).toOption

/-- A record that the change makes of the one under each key, one key after the
other, has this key again if it can be stored in its place. -/
def StoresOwnKeys (codec : Bincode T) (recordSize : Nat) (change : T → T) :
    (K → Option T) → List K → Prop
  | _, [] => True
  | under, key :: keys =>
    match under key with
    | none => StoresOwnKeys codec recordSize change under keys
    | some record =>
      Records.accept codec recordSize (change record) = .ok () →
        TableRecord.key (change record) = key ∧
          StoresOwnKeys codec recordSize change (Function.update under key (some (change record)))
            keys

def Operation.KeepsOwnKeys (codec : Bincode T) (recordSize : Nat) (under : K → Option T) :
    Operation K T R → Prop
  | .updateWithLock key f => StoresOwnKeys codec recordSize (fun record => (f record).2) under [key]
  | .updateMany keys updater => StoresOwnKeys codec recordSize updater under keys
  | _ => True

/-- One call, all of whose semaphore operations succeed. -/
def Table.Called (table : Table K B) (codec : Bincode T) (memory : TableMemory B)
    (operation : Operation K T R) (after : TableMemory B) : Prop :=
  ∃ reply, table.run codec (fun _ => .ok ()) memory operation = some (reply, after)

namespace Records
variable {codec : Bincode T} {recordSize : Nat} {records : Records K T} {updater : T → T}

theorem updateMany_keyed {keys : List K}
    (own : StoresOwnKeys codec recordSize updater records.under keys) (found : Nat)
    (keyed : records.Keyed) :
    (updateMany codec recordSize updater records keys found).2.Keyed := by
  induction keys generalizing records found with
  | nil => exact keyed
  | cons key keys ih =>
    cases lookup : records.lookup key with
    | none =>
      simp only [StoresOwnKeys, under, lookup, Option.map_none] at own
      simp only [updateMany, lookup]
      exact ih own found keyed
    | some entry =>
      obtain ⟨index, record⟩ := entry
      simp only [StoresOwnKeys, under, lookup, Option.map_some] at own
      simp only [updateMany, lookup]
      cases accepted : accept codec recordSize (updater record) with
      | error e => exact keyed
      | ok _ =>
        obtain ⟨same, rest⟩ := own accepted
        refine ih ?_ _ (keyed.insert same)
        rw [under_insert]
        exact rest

/-- Over distinct keys, a record that is stored under another key stays there. -/
theorem updateMany_misplaced {keys : List K} (distinct : keys.Nodup)
    (broken : ¬ StoresOwnKeys codec recordSize updater records.under keys) (found : Nat) :
    ∃ key index record,
      (updateMany codec recordSize updater records keys found).2.lookup key = some (index, record) ∧
        TableRecord.key record ≠ key := by
  induction keys generalizing records found with
  | nil => exact absurd trivial broken
  | cons key keys ih =>
    obtain ⟨outside, distinct⟩ := List.nodup_cons.mp distinct
    cases lookup : records.lookup key with
    | none =>
      simp only [StoresOwnKeys, under, lookup, Option.map_none] at broken
      simp only [updateMany, lookup]
      exact ih distinct broken found
    | some entry =>
      obtain ⟨index, record⟩ := entry
      simp only [StoresOwnKeys, under, lookup, Option.map_some, not_forall] at broken
      obtain ⟨accepted, broken⟩ := broken
      simp only [updateMany, lookup, accepted]
      by_cases same : TableRecord.key (updater record) = key
      · refine ih distinct ?_ _
        rw [under_insert]
        exact fun rest => broken ⟨same, rest⟩
      · refine ⟨key, index, updater record, ?_, same⟩
        rw [updateMany_lookup_other _ _ _ outside, Finmap.lookup_insert]

end Records

namespace Table.Holds
variable {table : Table K B} {codec : Bincode T} {capacity recordSize : Nat}
  {memory after : TableMemory B} {records : Records K T}

omit [TableRecord T K] in
/-- Every slot in use stores the record of some key. -/
theorem owner (holds : Holds table codec capacity recordSize memory records) {i : Nat}
    (used : memory.slots.Occupied i) : ∃ key record, records.lookup key = some (i, record) := by
  have entry : ∀ key ∈ records.keys, ∃ index record, records.lookup key = some (index, record) := by
    intro key member
    obtain ⟨⟨index, record⟩, lookup⟩ := Finmap.mem_iff.mp (Finmap.mem_keys.mp member)
    exact ⟨index, record, lookup⟩
  choose index record lookup using entry
  have inside : ∀ key member, index key member ∈ memory.slots.occupiedSlots.toFinset := by
    intro key member
    rw [List.mem_toFinset, Slots.mem_occupiedSlots]
    exact (holds.stored (lookup key member)).1
  have injective : ∀ first second member member',
      index first member = index second member' → first = second := by
    intro first second member member' same
    exact holds.distinct (lookup first member) (same ▸ lookup second member')
  have enough : memory.slots.occupiedSlots.toFinset.card ≤ records.keys.card := by
    rw [List.toFinset_card_of_nodup memory.slots.occupiedSlots_nodup,
      ← holds.slots.wellFormed.count_eq, holds.count]
  obtain ⟨key, member, same⟩ := Finset.surj_on_of_inj_on_of_card_le index inside injective enough i
    (by rwa [List.mem_toFinset, Slots.mem_occupiedSlots])
  exact ⟨key, _, same ▸ lookup key member⟩

theorem ownKeys (holds : Holds table codec capacity recordSize memory records)
    (keyed : records.Keyed) (lookups : ∀ key, table.primaryKeys.get memory.index key =
      some ((records.lookup key).map Prod.fst)) : table.OwnKeys codec memory := by
  refine ⟨?_, ?_, ?_⟩
  · intro key position links
    obtain ⟨entries, refines, nodup, agree⟩ := holds.indexed
    have member := FifoMultimap.mem_queue.mpr (refines.links_iff.mp links)
    rw [FifoMultimap.queue_of_nodup nodup, agree, Option.mem_toList] at member
    obtain ⟨⟨index, record⟩, lookup, rfl⟩ := Option.map_eq_some_iff.mp member
    exact ⟨record, (holds.stored lookup).2, keyed lookup⟩
  · intro key record found
    simp only [Table.find, lookups, bind, Option.bind_some] at found
    cases lookup : records.lookup key with
    | none => simp [lookup] at found
    | some entry =>
      simp only [lookup, Option.map_some, holds.get_eq lookup] at found
      cases found
      exact keyed lookup
  · have decodable : ∀ i, memory.slots.Occupied i → ∃ record : T,
        codec.decode (memory.slots.get i) = .ok record := by
      intro i used
      obtain ⟨key, record, lookup⟩ := holds.owner used
      exact ⟨record, (holds.stored lookup).2⟩
    obtain ⟨found, iterated, decoded⟩ :=
      holds.slots.wellFormed.collect_slots (Table.records_read decodable)
    refine ⟨found, iterated, ?_⟩
    -- slots and keys determine each other
    have unique : Relator.BiUnique
        (fun i (key : K) => ∃ record, records.lookup key = some (i, record)) := by
      constructor
      · rintro i key j ⟨record, first⟩ ⟨record', second⟩
        cases first.symm.trans second
        rfl
      · rintro i key key' ⟨record, first⟩ ⟨record', second⟩
        exact holds.distinct first second
    refine (List.rel_nodup unique (List.forall₂_map_right_iff.mpr ?_)).mp
      memory.slots.occupiedSlots_nodup
    refine ((List.forall₂_and_left (p := memory.slots.Occupied) _ _).mpr
      ⟨fun i => Slots.mem_occupiedSlots.mp, decoded⟩).imp ?_
    rintro i record ⟨used, decoded⟩
    obtain ⟨key, _, lookup⟩ := holds.owner used
    cases (holds.stored lookup).2.symm.trans decoded
    exact ⟨_, by rwa [keyed lookup]⟩

omit [TableRecord T K] in
theorem recordUnder_eq (holds : Holds table codec capacity recordSize memory records)
    (serves : table.Serves capacity) : table.recordUnder codec memory = records.under := by
  funext key
  simp only [Table.recordUnder, holds.lookup_eq serves.buckets, Records.under]
  cases lookup : records.lookup key with
  | none => rfl
  | some entry => simp [(holds.stored lookup).2, Except.toOption]

theorem called (holds : Holds table codec capacity recordSize memory records)
    (serves : table.Serves capacity) (keyed : records.Keyed) {operation : Operation K T R}
    (own : operation.KeepsOwnKeys codec recordSize (table.recordUnder codec memory))
    (called : table.Called codec memory operation after) :
    ∃ records', Holds table codec capacity recordSize after records' ∧ records'.Keyed := by
  obtain ⟨reply, returned⟩ := called
  obtain ⟨_, _, records', returned', answers, held⟩ := holds.run serves operation
  cases returned.symm.trans returned'
  rw [holds.recordUnder_eq serves] at own
  refine ⟨records', held, ?_⟩
  cases answers with
  | updated lookup accepted =>
    simp only [Operation.KeepsOwnKeys, StoresOwnKeys, Records.under, lookup] at own
    exact keyed.insert (own accepted).1
  | updatedMany keys updater => exact Records.updateMany_keyed own 0 keyed
  | inserted => exact keyed.insert rfl
  | removed key => exact keyed.erase key
  | _ => exact keyed

end Table.Holds

/-- The keys of an `update_many` are distinct. -/
def Operation.DistinctKeys : Operation K T R → Prop
  | .updateMany keys _ => keys.Nodup
  | _ => True

theorem Table.Holds.misplaced {table : Table K B} {codec : Bincode T} {capacity recordSize : Nat}
    {memory after : TableMemory B} {records : Records K T}
    (holds : Holds table codec capacity recordSize memory records)
    (serves : table.Serves capacity) {operation : Operation K T R}
    (called : table.Called codec memory operation after) (distinct : operation.DistinctKeys)
    (broken : ¬ operation.KeepsOwnKeys codec recordSize (table.recordUnder codec memory)) :
    ¬ table.OwnKeys codec after := by
  obtain ⟨reply, returned⟩ := called
  obtain ⟨_, _, records', returned', answers, held⟩ := holds.run serves operation
  cases returned.symm.trans returned'
  rw [holds.recordUnder_eq serves] at broken
  have astray : ∃ key index record, records'.lookup key = some (index, record) ∧
      TableRecord.key record ≠ key := by
    cases answers with
    | skipped absent =>
      simp [Operation.KeepsOwnKeys, StoresOwnKeys, Records.under,
        Finmap.lookup_eq_none.mpr absent] at broken
    | rejected lookup refused =>
      simp [Operation.KeepsOwnKeys, StoresOwnKeys, Records.under, lookup, refused] at broken
    | @updated key f index record lookup accepted =>
      simp only [Operation.KeepsOwnKeys, StoresOwnKeys, Records.under, lookup, Option.map_some,
        not_forall, and_true] at broken
      obtain ⟨_, misplaced⟩ := broken
      exact ⟨key, index, _, Finmap.lookup_insert _, misplaced⟩
    | updatedMany keys updater => exact Records.updateMany_misplaced distinct broken 0
    | _ => exact absurd trivial broken
  obtain ⟨key, index, record, lookup, misplaced⟩ := astray
  intro own
  have found : table.find codec after key = some (.ok (some record)) := by
    rw [held.find serves, lookup]
    rfl
  exact misplaced (own.found found)

section Runs
variable [Inhabited K] (layout : NodeLayout K B) (hasher : K → Nat) (semId : Nat)
  (codec : Bincode T) (capacity recordSize : Nat)
  (small : Slots.slotMetadataSize + recordSize < usizeModulus)
  (data : Nat → Slot UInt8) (nodes : Nat → Slot B)
include small

/-- After any calls whose closures give records back with their keys, the keys
in the records and in the index agree; a call whose closure does not, over
distinct keys, breaks the agreement. -/
theorem record_keys_agree :
    (∀ (operations : List (Operation K T R)) memory,
      Run (Guarded ((Table.handle layout hasher semId capacity).Called codec)
          (fun memory operation => operation.KeepsOwnKeys codec recordSize
            ((Table.handle layout hasher semId capacity).recordUnder codec memory)))
        (Table.createWithSize layout hasher semId capacity recordSize data nodes).2 operations
        memory →
      (Table.handle layout hasher semId capacity).OwnKeys codec memory) ∧
    (1 ≤ capacity → ∀ (operations : List (Operation K T R)) memory (operation : Operation K T R)
        after,
      Run ((Table.handle layout hasher semId capacity).Called codec)
        (Table.createWithSize layout hasher semId capacity recordSize data nodes).2 operations
        memory →
      (Table.handle layout hasher semId capacity).Called codec memory operation after →
      operation.DistinctKeys →
      ¬ operation.KeepsOwnKeys codec recordSize
        ((Table.handle layout hasher semId capacity).recordUnder codec memory) →
      ¬ (Table.handle layout hasher semId capacity).OwnKeys codec after) := by
  constructor
  · intro operations memory run
    rcases Nat.eq_zero_or_pos capacity with rfl | positive
    · have absent : ∀ key, (Table.handle layout hasher semId 0).primaryKeys.get
          (Table.createWithSize layout hasher semId 0 recordSize data nodes).2.index key =
            some none :=
        fun _ => rfl
      have fresh : memory =
          (Table.createWithSize layout hasher semId 0 recordSize data nodes).2 := by
        refine run.invariant (P := (· = _)) ?_ rfl
        rintro memory operation after rfl ⟨⟨reply, returned⟩, _⟩
        obtain ⟨_, returned'⟩ :=
          Table.run_without_slots (fun _ => .ok ()) absent (Nat.le_refl 0) operation
        cases returned.symm.trans returned'
        rfl
      subst fresh
      have created : (Table.handle layout hasher semId 0).Holds codec 0 recordSize _ (∅ : Records K T) :=
        .of_create layout hasher semId data nodes small
      exact created.ownKeys (by simp [Records.Keyed]) (fun _ => rfl)
    · have serves := Table.handle_serves layout hasher semId positive
      obtain ⟨records, holds, keyed⟩ := run.invariant
        (P := fun memory => ∃ records, (Table.handle layout hasher semId capacity).Holds codec
          capacity recordSize memory records ∧ records.Keyed)
        (fun ⟨_, holds, keyed⟩ ⟨called, own⟩ => holds.called serves keyed own called)
        ⟨∅, .of_create layout hasher semId data nodes small, by simp [Records.Keyed]⟩
      exact holds.ownKeys keyed (holds.lookup_eq serves.buckets)
  · intro positive operations memory operation after run called distinct broken
    have serves := Table.handle_serves layout hasher semId positive
    obtain ⟨records, holds⟩ := run.invariant
      (P := fun memory => ∃ records, (Table.handle layout hasher semId capacity).Holds codec
        capacity recordSize memory (records : Records K T))
      (fun ⟨_, holds⟩ ⟨_, returned⟩ => by
        obtain ⟨_, _, records', returned', _, held⟩ := holds.run serves _
        cases returned.symm.trans returned'
        exact ⟨records', held⟩)
      ⟨∅, .of_create layout hasher semId data nodes small⟩
    exact holds.misplaced serves called distinct broken

end Runs

theorem record_keys_agree_sample :
    (Table.handle (.cell UInt8) UInt8.toNat 0 1).OwnKeys Bincode.twoBytes
        ((Table.handle (.cell UInt8) UInt8.toNat 0 1).runAll .twoBytes oneSlot
          [.insert (1, 2), .updateWithLock 1 (fun record => ((), (record.1, 7)))]) ∧
      ¬ (Table.handle (.cell UInt8) UInt8.toNat 0 1).OwnKeys Bincode.twoBytes
        ((Table.handle (.cell UInt8) UInt8.toNat 0 1).runAll .twoBytes oneSlot
          (rekeyed.map Prod.fst)) := by
  obtain ⟨agree, astray⟩ := record_keys_agree (R := Unit) (.cell UInt8) UInt8.toNat 0
    Bincode.twoBytes 1 2 (by decide) (fun _ => ⟨.free, 0, []⟩) (fun _ => ⟨.free, 0, []⟩)
  constructor
  · exact agree [.insert (1, 2), .updateWithLock 1 (fun record => ((), (record.1, 7)))] _
      (.next ⟨⟨_, rfl⟩, trivial⟩ (.next ⟨⟨_, rfl⟩, fun _ => ⟨rfl, trivial⟩⟩ (.refl _)))
  · exact astray (by decide) [.insert (1, 2)] _ (.updateWithLock 1 (fun _ => ((), (3, 4)))) _
      (.next ⟨_, rfl⟩ (.refl _)) ⟨_, rfl⟩ trivial (fun own => absurd (own rfl).1 (by decide))

/-- The closure gives the record another key: it is found under the old one. -/
theorem record_keys_disagree :
    let memory := (Table.handle (.cell UInt8) UInt8.toNat 0 1).runAll .twoBytes oneSlot
      (rekeyed.map Prod.fst)
    Run ((Table.handle (.cell UInt8) UInt8.toNat 0 1).Called .twoBytes) oneSlot
        (rekeyed.map Prod.fst) memory ∧
      (Table.handle (.cell UInt8) UInt8.toNat 0 1).find Bincode.twoBytes memory 1 =
        some (.ok (some (3, 4))) ∧
      ¬ (Table.handle (.cell UInt8) UInt8.toNat 0 1).OwnKeys Bincode.twoBytes memory := by
  refine ⟨.next ⟨_, rfl⟩ (.next ⟨_, rfl⟩ (.refl _)), rfl, ?_⟩
  intro own
  have found : (Table.handle (.cell UInt8) UInt8.toNat 0 1).find Bincode.twoBytes
      ((Table.handle (.cell UInt8) UInt8.toNat 0 1).runAll .twoBytes oneSlot
        (rekeyed.map Prod.fst)) 1 = some (.ok (some (3, 4))) := rfl
  exact absurd (own.found found) (by decide)

end InMemoryTable
