import InMemoryTable.Start

/-! Concurrent insertions. The check for duplicates precedes the semaphore of the
table and is not repeated under it. -/
namespace InMemoryTable
open Interleaving Transition

variable {K T R B ι : Type}

def Operation.IsInsert : Operation K T R → Prop
  | .insert _ => True
  | _ => False

theorem Update.not_insert (change : Update K T R) : ¬ change.operation.IsInsert := by
  cases change <;> exact id

/-- The record that a client inserts under the semaphore of the table. -/
def Phase.inserting : Phase K T R → Option T
  | .locked (.insert record) | .insertInside record _ | .insertIndex record _ => some record
  | _ => none

theorem Phase.inserting_holding {table : Table K B} {phase : Phase K T R} {record : T}
    (inserting : phase.inserting = some record) :
    phase.holding table = some table.semaphores.tableNumber := by
  cases phase with
  | locked task =>
    cases task with
    | insert record => rfl
    | _ => cases inserting
  | insertInside record data => rfl
  | insertIndex record index => rfl
  | _ => cases inserting

/-- `Slots::insert` takes the record. -/
def Storable (codec : Bincode T) (memory : TableMemory B) (record : T) : Prop :=
  ∃ data, codec.encode record = .ok data ∧ data.length ≤ memory.slots.maxData ∧
    memory.slots.header.count < memory.slots.header.capacity

variable [DecidableEq K]

def Table.Absent (table : Table K B) (memory : TableMemory B) (key : K) : Prop :=
  table.primaryKeys.get memory.index key = some none

instance (table : Table K B) (memory : TableMemory B) (key : K) :
    Decidable (table.Absent memory key) :=
  inferInstanceAs (Decidable (_ = _))

def Table.Present (table : Table K B) (memory : TableMemory B) (key : K) : Prop :=
  ∃ position, table.primaryKeys.get memory.index key = some (some position)

variable [TableRecord T K]

/-- An insertion that takes the semaphore of the table and is going to store its
record finds the key still absent. -/
def StillAbsent (table : Table K B) (codec : Bincode T) (config : Phases ι K T R B)
    (label : ι × Event K T R) : Prop :=
  ∀ record, label.2 = .locked (.insert record) → Storable codec config.shared.memory record →
    table.Absent config.shared.memory (TableRecord.key record)

/-- An insertion of `key` that takes the semaphore of the table while the key is
absent is able to store its record. -/
def StoresKey (table : Table K B) (codec : Bincode T) (key : K) (config : Phases ι K T R B)
    (label : ι × Event K T R) : Prop :=
  ∀ record, label.2 = .locked (.insert record) → TableRecord.key record = key →
    table.Absent config.shared.memory key → Storable codec config.shared.memory record

/-- The key of a record that can be stored is absent, and a record that has to
be stored while its key is absent can be. -/
def Entitled (table : Table K B) (codec : Bincode T) (must : T → Prop) (memory : TableMemory B)
    (record : T) : Prop :=
  (Storable codec memory record → table.Absent memory (TableRecord.key record)) ∧
    (must record → table.Absent memory (TableRecord.key record) → Storable codec memory record)

/-- What an insertion under the semaphore relies on. -/
def Phase.Cleared (table : Table K B) (codec : Bincode T) (must : T → Prop)
    (memory : TableMemory B) : Phase K T R → Prop
  | .locked (.insert record) => Entitled table codec must memory record
  | .insertInside record data =>
    codec.encode record = .ok data ∧ Entitled table codec must memory record
  | .insertIndex record _ =>
    table.Absent memory (TableRecord.key record) ∧
      memory.index.slots.header.count < memory.slots.header.count
  | _ => True

variable {table : Table K B} {codec : Bincode T} {must : T → Prop} {capacity recordSize : Nat}
  {shared after : Shared B} {config last : Phases ι K T R B}

theorem Phase.cleared_of_not_inserting {memory : TableMemory B} {phase : Phase K T R}
    (outside : phase.inserting = none) : phase.Cleared table codec must memory := by
  cases phase with
  | locked task =>
    cases task with
    | insert record => cases outside
    | _ => trivial
  | insertInside record data => cases outside
  | insertIndex record index => cases outside
  | _ => trivial

/-- The steps of a client that only inserts. -/
inductive InsertStep (table : Table K B) (codec : Bincode T) (shared : Shared B) :
    Phase K T R → Event K T R → Shared B → Phase K T R → Prop where
  | called (record : T) :
      InsertStep table codec shared .idle (.called (.insert record)) shared
        (.lookup (.insert record))
  | duplicated {record : T} {position : Nat} :
      table.primaryKeys.get shared.memory.index (TableRecord.key record) = some (some position) →
      InsertStep table codec shared (.lookup (.insert record))
        (.searched (TableRecord.key record) (some position)) shared
        (.reply (.insert record) (.inserted (.error .recordDuplicated)))
  | absent {record : T} :
      table.Absent shared.memory (TableRecord.key record) →
      InsertStep table codec shared (.lookup (.insert record))
        (.searched (TableRecord.key record) none) shared (.lock (.insert record))
  | refused {record : T} {e : InMemoryTableError} :
      table.semaphores.lockTable (Semaphores.lock table.semaphores.stripes shared.semaphores) =
        .error e →
      InsertStep table codec shared (.lock (.insert record)) (.failed e) shared
        (.reply (.insert record) (.inserted (.error e)))
  | locked {record : T} {semaphores : Semaphores} :
      InsertStep table codec shared (.lock (.insert record)) (.locked (.insert record))
        { shared with semaphores } (.locked (.insert record))
  | rejected {record : T} {e : InMemoryTableError} {semNum : Nat} : codec.encode record = .error e →
      InsertStep table codec shared (.locked (.insert record)) (.failed e) shared
        (.unlock semNum (.reply (.insert record) (.inserted (.error e))))
  | entered {record : T} {data : List UInt8} : codec.encode record = .ok data →
      InsertStep table codec shared (.locked (.insert record)) .entered shared
        (.insertInside record data)
  | full {record : T} {data : List UInt8} {e : InMemoryTableError} {slots : Slots UInt8}
      {semNum : Nat} : shared.memory.slots.insert data = (.error e, slots) →
      InsertStep table codec shared (.insertInside record data) .left
        { shared with memory := { shared.memory with slots } }
        (.unlock semNum (.reply (.insert record) (.inserted (.error e))))
  | stored {record : T} {data : List UInt8} {index : Nat} {slots : Slots UInt8} :
      shared.memory.slots.insert data = (.ok index, slots) →
      InsertStep table codec shared (.insertInside record data) .left
        { shared with memory := { shared.memory with slots } } (.insertIndex record index)
  | linked {record : T} {index semNum : Nat} {result : Except InMemoryTableError Unit}
      {block : IndexBlock B} :
      table.primaryKeys.insert shared.memory.index (TableRecord.key record) index =
        some (result, block) →
      InsertStep table codec shared (.insertIndex record index) (.linked result)
        { shared with memory := { shared.memory with index := block } }
        (.unlock semNum (.reply (.insert record) (.inserted (result.map (fun _ => index)))))
  | unlocked {record : T} {answer : Reply T R} {semNum : Nat} {semaphores : Semaphores} :
      InsertStep table codec shared (.unlock semNum (.reply (.insert record) answer))
        (.unlocked semNum) { shared with semaphores } (.reply (.insert record) answer)
  | replied {record : T} {answer : Reply T R} :
      InsertStep table codec shared (.reply (.insert record) answer)
        (.replied (.insert record) answer) shared .idle

theorem Effect.insertStep {phase next : Phase K T R} {event : Event K T R}
    (effect : Effect table codec Operation.IsInsert shared phase event after next)
    (within : phase.Within Operation.IsInsert) :
    InsertStep table codec shared phase event after next := by
  cases effect with
  | @called operation calls =>
    cases operation with
    | insert record => exact .called record
    | _ => exact calls.elim
  | @replied operation answer =>
    cases operation with
    | insert record => exact .replied
    | _ => exact (within _ rfl).elim
  | @searched request position found =>
    cases request with
    | insert record =>
      cases position with
      | none => exact .absent found
      | some position => exact .duplicated found
    | update change => exact absurd (within _ rfl) change.not_insert
    | _ => exact (within _ rfl).elim
  | @refused task e refused =>
    cases task with
    | insert record => exact .refused refused
    | update change index => exact absurd (within _ rfl) change.not_insert
    | remove key index => exact (within _ rfl).elim
  | @locked task =>
    cases task with
    | insert record => exact .locked
    | update change index => exact absurd (within _ rfl) change.not_insert
    | remove key index => exact (within _ rfl).elim
  | rejected failed => exact .rejected failed
  | insertEntered encoded => exact .entered encoded
  | insertRefused refused => exact .full refused
  | inserted stored => exact .stored stored
  | linked linked => exact .linked linked
  | @unlocked semNum after =>
    cases after with
    | reply operation answer =>
      cases operation with
      | insert record => exact .unlocked
      | _ => exact (within _ rfl).elim
    | many updater keys rest found => exact (within _ rfl).elim
  | @unread change => exact absurd (within _ rfl) change.not_insert
  | @applied change => exact absurd (within _ rfl) change.not_insert
  | @unwritten change => exact absurd (within _ rfl) change.not_insert
  | @written change => exact absurd (within _ rfl) change.not_insert
  | _ => exact (within _ rfl).elim

/-- The memory of a table into which clients insert: keys are distinct, and an
index entry is never older than its record. -/
structure Table.Distinct (table : Table K B) (capacity recordSize : Nat)
    (memory : TableMemory B) : Prop where
  buckets : 0 < table.primaryKeys.totalBuckets
  slots : Slots.Sized capacity recordSize memory.slots
  indexed : ∃ entries, table.primaryKeys.Refines capacity memory.index entries ∧
    (entries.map Prod.fst).Nodup
  behind : memory.index.slots.header.count ≤ memory.slots.header.count

namespace Table.Distinct
variable {memory : TableMemory B}

omit [TableRecord T K] in
theorem present_or_absent (distinct : table.Distinct capacity recordSize memory) (key : K) :
    table.Present memory key ∨ table.Absent memory key := by
  obtain ⟨entries, refines, _⟩ := distinct.indexed
  have get := refines.get_eq distinct.buckets key
  cases found : FifoMultimap.get entries key with
  | none => exact .inr (by rw [Absent, get, found])
  | some position => exact .inl ⟨position, by rw [get, found]⟩

omit [DecidableEq K] [TableRecord T K] in
/-- Storing a record in a slot. -/
theorem store (distinct : table.Distinct capacity recordSize memory) {index : Nat}
    {data : List UInt8} {slots : Slots UInt8}
    (inserted : Slots.Inserted memory.slots index data slots) :
    table.Distinct capacity recordSize { memory with slots } where
  buckets := distinct.buckets
  slots := inserted.sized distinct.slots
  indexed := distinct.indexed
  behind := by
    have count := inserted.count
    have behind := distinct.behind
    change memory.index.slots.header.count ≤ slots.header.count
    omega

/-- Linking the record of an absent key succeeds and changes the answer for
this key only. -/
theorem link (distinct : table.Distinct capacity recordSize memory) {key : K} {index : Nat}
    {result : Except InMemoryTableError Unit} {block : IndexBlock B}
    (absent : table.Absent memory key)
    (room : memory.index.slots.header.count < memory.slots.header.count)
    (linked : table.primaryKeys.insert memory.index key index = some (result, block)) :
    result = .ok () ∧ table.Distinct capacity recordSize { memory with index := block } ∧
      table.Present { memory with index := block } key ∧
      ∀ other ≠ key, table.primaryKeys.get block other =
        table.primaryKeys.get memory.index other := by
  obtain ⟨entries, refines, nodup⟩ := distinct.indexed
  have fresh : FifoMultimap.get entries key = none :=
    Option.some.inj ((refines.get_eq distinct.buckets key).symm.trans absent)
  have limit := distinct.slots.wellFormed.count_le
  rw [distinct.slots.capacity] at limit
  have length := refines.length_eq
  obtain ⟨block', same, refined⟩ :=
    refines.insert_ok distinct.buckets key index (by omega)
  cases same.symm.trans linked
  have count := refined.length_eq
  rw [List.length_append, List.length_singleton] at count
  refine ⟨rfl, ⟨distinct.buckets, distinct.slots, ⟨_, refined, ?_⟩, ?_⟩, ⟨index, ?_⟩, ?_⟩
  · exact FifoMultimap.nodup_append nodup fresh
  · change block.slots.header.count ≤ memory.slots.header.count
    omega
  · rw [refined.get_eq distinct.buckets, FifoMultimap.get_append, fresh]
    simp
  · intro other different
    rw [refined.get_eq distinct.buckets, refines.get_eq distinct.buckets,
      FifoMultimap.get_append_other (Ne.symm different)]

end Table.Distinct

/-- Every insertion under the semaphore is still entitled to what it does. -/
structure Inserting (table : Table K B) (codec : Bincode T) (must : T → Prop)
    (capacity recordSize : Nat) (config : Phases ι K T R B) : Prop where
  exclusive : Exclusive table config
  within : ∀ c, (config.client c).Within Operation.IsInsert
  distinct : table.Distinct capacity recordSize config.shared.memory
  cleared : ∀ c, (config.client c).Cleared table codec must config.shared.memory

/-- What a step of a client that inserts does to the memory, and what its next
phase relies on. -/
inductive InsertEffect (table : Table K B) (codec : Bincode T) (must : T → Prop)
    (capacity recordSize : Nat) (memory : TableMemory B) (phase : Phase K T R)
    (memory' : TableMemory B) (next : Phase K T R) : Prop where
  | kept : memory' = memory → next.Cleared table codec must memory →
      InsertEffect table codec must capacity recordSize memory phase memory' next
  | grown {record : T} : phase.inserting = some record →
      table.Distinct capacity recordSize memory' → next.Cleared table codec must memory' →
      InsertEffect table codec must capacity recordSize memory phase memory' next

theorem InsertStep.memory {phase next : Phase K T R} {event : Event K T R}
    (step : InsertStep table codec shared phase event after next)
    (distinct : table.Distinct capacity recordSize shared.memory)
    (cleared : phase.Cleared table codec must shared.memory)
    (guarded : ∀ record, event = .locked (.insert record) →
      Entitled table codec must shared.memory record) :
    InsertEffect table codec must capacity recordSize shared.memory phase after.memory next := by
  cases step with
  | @locked record => exact .kept rfl (guarded record rfl)
  | entered encoded => exact .kept rfl ⟨encoded, cleared⟩
  | @full record data e slots semNum refused =>
    obtain ⟨_, same⟩ | ⟨_, _, same⟩ | ⟨_, _, _, _, same, _⟩ := distinct.slots.insert_cases data
    · cases same.symm.trans refused
      exact .kept rfl trivial
    · cases same.symm.trans refused
      exact .kept rfl trivial
    · cases same.symm.trans refused
  | @stored record data index slots stored =>
    obtain ⟨encoded, absent, _⟩ := cleared
    obtain ⟨_, same⟩ | ⟨_, _, same⟩ | ⟨room, fits, _, _, same, inserted⟩ :=
      distinct.slots.insert_cases data
    · cases same.symm.trans stored
    · cases same.symm.trans stored
    · cases same.symm.trans stored
      have storable : Storable codec shared.memory record := by
        refine ⟨data, encoded, ?_, ?_⟩
        · rwa [distinct.slots.maxData]
        · rwa [distinct.slots.capacity]
      refine .grown rfl (distinct.store inserted) ⟨absent storable, ?_⟩
      have behind := distinct.behind
      have count := inserted.count
      change shared.memory.index.slots.header.count < slots.header.count
      omega
  | @linked record index semNum result block linked =>
    obtain ⟨absent, room⟩ := cleared
    obtain ⟨_, distinct', _⟩ := distinct.link absent room linked
    exact .grown rfl distinct' trivial
  | _ => exact .kept rfl trivial

omit [TableRecord T K] in
theorem Table.Holds.to_distinct {memory : TableMemory B} {records : Records K T}
    (holds : table.Holds codec capacity recordSize memory records)
    (serves : table.Serves capacity) : table.Distinct capacity recordSize memory where
  buckets := serves.buckets
  slots := holds.slots
  indexed := by
    obtain ⟨entries, refines, nodup, _⟩ := holds.indexed
    exact ⟨entries, refines, nodup⟩
  behind := by
    obtain ⟨entries, refines, nodup, agree⟩ := holds.indexed
    rw [holds.count, Table.card_keys nodup agree, refines.length_eq]

theorem Started.inserting {records : Records K T} (serves : table.Serves capacity)
    (started : Started table codec capacity recordSize config records) :
    Inserting table codec must capacity recordSize config where
  exclusive := started.exclusive
  within c operation current := by
    rw [started.idle c] at current
    cases current
  distinct := started.holds.to_distinct serves
  cleared c := by
    rw [started.idle c]
    trivial

variable {label : ι × Event K T R}

theorem StillAbsent.entitled (still : StillAbsent table codec config label) {record : T}
    (locked : label.2 = .locked (.insert record)) :
    Entitled table codec (fun _ => False) config.shared.memory record :=
  ⟨still record locked, fun impossible => impossible.elim⟩

theorem StoresKey.entitled {key : K} (stores : StoresKey table codec key config label)
    (still : StillAbsent table codec config label) {record : T}
    (locked : label.2 = .locked (.insert record)) :
    Entitled table codec (fun record => TableRecord.key record = key) config.shared.memory
      record := by
  refine ⟨still record locked, fun same absent => stores record locked same ?_⟩
  rwa [← same]

variable [DecidableEq ι]

theorem Inserting.step (inserting : Inserting table codec must capacity recordSize config)
    (moves : Step (Effect table codec Operation.IsInsert) config label last)
    (guarded : ∀ record, label.2 = .locked (.insert record) →
      Entitled table codec must config.shared.memory record) :
    Inserting table codec must capacity recordSize last := by
  have exclusive := inserting.exclusive.step moves
  cases moves with
  | @move c event shared phase effect =>
    have within : ∀ d, ((config.moved c shared phase).client d).Within Operation.IsInsert :=
      config.moved_forall c shared phase (effect.within (inserting.within c))
        (fun d _ => inserting.within d)
    have cleared : phase.Cleared table codec must shared.memory →
        (∀ d ≠ c, (config.client d).Cleared table codec must shared.memory) →
        ∀ d, ((config.moved c shared phase).client d).Cleared table codec must shared.memory :=
      config.moved_forall c shared phase
        (P := fun _ phase => phase.Cleared table codec must shared.memory)
    cases (effect.insertStep (inserting.within c)).memory inserting.distinct (inserting.cleared c)
      guarded with
    | kept same mine =>
      refine ⟨exclusive, within, by simpa only [Config.moved_shared, same] using inserting.distinct,
        cleared (by rwa [same]) (fun d _ => ?_)⟩
      rw [same]
      exact inserting.cleared d
    | grown holding distinct mine =>
      refine ⟨exclusive, within, distinct, cleared mine (fun d different => ?_)⟩
      refine Phase.cleared_of_not_inserting (Option.eq_none_iff_forall_ne_some.mpr ?_)
      intro record other
      exact different (inserting.exclusive.same_client (Phase.inserting_holding other)
        (Phase.inserting_holding holding))

theorem Inserting.run {allowed : Phases ι K T R B → ι × Event K T R → Prop}
    {trace : List (ι × Event K T R)}
    (inserting : Inserting table codec must capacity recordSize config)
    (entitled : ∀ {config label}, allowed config label → ∀ record,
      label.2 = .locked (.insert record) → Entitled table codec must config.shared.memory record)
    (run : Run (Guarded (Step (Effect table codec Operation.IsInsert)) allowed) config trace last) :
    Inserting table codec must capacity recordSize last :=
  run.invariant (fun inserting stepped => inserting.step stepped.1 (entitled stepped.2)) inserting

/-- An insertion that takes the semaphore although its key is in the index, and
is able to store its record, goes on to link the key once more. -/
theorem Inserting.link_again {middle after : Config ι (Shared B) (Client K T R)} {c : ι}
    {record : T} (inserting : Inserting table codec must capacity recordSize (phases middle))
    (stepped : Client.Steps table codec middle (c, .locked (.insert record)) after)
    (storable : Storable codec middle.shared.memory record)
    (stale : ¬ table.Absent middle.shared.memory (TableRecord.key record)) :
    ∃ more last, Run (Client.Steps table codec) after more last ∧
      ¬ table.primaryKeys.UniqueKeys last.shared.memory.index := by
  obtain ⟨data, encoded, fits, room⟩ := storable
  obtain ⟨stepped⟩ := stepped
  rename_i shared moved
  obtain ⟨effect, _⟩ := Client.next_effect (fun _ => True) (fun _ _ _ => trivial) stepped
  have locked : moved.phase = .locked (.insert record) := effect.locked_task
  have same : shared.memory = middle.shared.memory := effect.locked_memory
  have distinct : table.Distinct capacity recordSize shared.memory := by
    rw [same]
    exact inserting.distinct
  rw [← same] at fits room stale
  have entered : Computes (Client.next table codec) shared moved .entered shared
      { moved with phase := .insertInside record data } := by
    simp [Computes, Client.next, locked, Phase.advance, Phase.work, encoded]
  obtain ⟨index, slots, stored, inserted⟩ := distinct.slots.wellFormed.insert_ok room fits
  have left : Computes (Client.next table codec) shared
      { moved with phase := .insertInside record data } .left
      { shared with memory := { shared.memory with slots } }
      { moved with phase := .insertIndex record index } := by
    simp [Computes, Client.next, Phase.advance, stored]
  obtain ⟨entries, refines, nodup⟩ := distinct.indexed
  have behind := distinct.behind
  rw [distinct.slots.capacity] at room
  obtain ⟨block, linked, refined⟩ := refines.insert_ok distinct.buckets (TableRecord.key record)
    index (by rw [refines.length_eq]; omega)
  have finished : Computes (Client.next table codec)
      { shared with memory := { shared.memory with slots } }
      { moved with phase := .insertIndex record index } (.linked (.ok ()))
      { shared with memory := { shared.memory with slots, index := block } }
      { moved with
        phase :=
          .unlock table.semaphores.tableNumber (.reply (.insert record) (.inserted (.ok index))) }
      := by
    simp [Computes, Client.next, Phase.advance, linked, Except.map]
  refine ⟨_, _, .next (.again entered) (.next (.again left) (.next (.again finished) (.refl _))), ?_⟩
  rw [Config.moved_shared, refined.uniqueKeys_iff, List.map_append]
  intro unique
  refine stale ?_
  rw [Table.Absent, refines.get_eq distinct.buckets, Option.some.injEq, FifoMultimap.get_eq_none]
  intro entry member taken
  apply List.disjoint_of_nodup_append unique (List.mem_map_of_mem (f := Prod.fst) member)
  simp [taken]

end InMemoryTable
