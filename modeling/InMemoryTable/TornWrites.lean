import InMemoryTable.ReadersInterleaved

/-! `Slots::set_record_data` taken apart into its three stores. A find takes no
semaphore, so it may read the slot between two stores of an update. -/
namespace InMemoryTable
open Interleaving Transition

variable {K T R B ι : Type}

namespace Slots

/-- `record.state = state` -/
def writeState (self : Slots B) (index : Nat) (state : SlotState) : Slots B :=
  { self with slot := Function.update self.slot index { self.slot index with state } }

/-- `record.size = size` -/
def writeSize (self : Slots B) (index size : Nat) : Slots B :=
  { self with slot := Function.update self.slot index { self.slot index with size } }

/-- `copy_nonoverlapping` to the buffer of a slot. -/
def copyBytes (self : Slots B) (index : Nat) (data : List B) : Slots B :=
  let buffer := data ++ (self.slot index).buffer.drop data.length
  { self with slot := Function.update self.slot index { self.slot index with buffer } }

theorem writeState_self {self : Slots B} {index : Nat} {state : SlotState}
    (same : (self.slot index).state = state) : self.writeState index state = self := by
  subst same
  simp only [writeState, Function.update_eq_self_iff.mpr]

theorem writeSize_self (self : Slots B) (index size : Nat) :
    (self.writeSize index size).slot index = { self.slot index with size } :=
  Function.update_self ..

theorem writeSize_other {self : Slots B} {index size i : Nat} (different : i ≠ index) :
    (self.writeSize index size).slot i = self.slot i :=
  Function.update_of_ne different ..

theorem copyBytes_self (self : Slots B) (index : Nat) (data : List B) :
    (self.copyBytes index data).slot index =
      { self.slot index with buffer := data ++ (self.slot index).buffer.drop data.length } :=
  Function.update_self ..

theorem copyBytes_other {self : Slots B} {index i : Nat} {data : List B} (different : i ≠ index) :
    (self.copyBytes index data).slot i = self.slot i :=
  Function.update_of_ne different ..

theorem setRecordData_steps (self : Slots B) (index : Nat) (data : List B) :
    ((self.writeState index .occupied).writeSize index data.length).copyBytes index data =
      self.setRecordData index data := by
  simp [writeState, writeSize, copyBytes, setRecordData]

end Slots

/-- An update writes in three steps; `data` is the serialized new record. -/
inductive TornStage (K T R : Type) where
  | whole (phase : Phase K T R)
  | writeSize (change : Update K T R) (index : Nat) (record : T) (data : List UInt8)
  | copyBytes (change : Update K T R) (index : Nat) (record : T) (data : List UInt8)

inductive TornEvent (K T R : Type) where
  | moved (event : Event K T R)
  | wroteState
  | wroteSize
  | copied (key : K) (record : T)

def Shared.withSlots (shared : Shared B) (slots : Slots UInt8) : Shared B :=
  { shared with memory := { shared.memory with slots } }

@[simp] theorem Shared.withSlots_slots (shared : Shared B) (slots : Slots UInt8) :
    (shared.withSlots slots).memory.slots = slots := rfl

namespace TornStage

/-- The phase of a client that writes in one step. -/
def phase : TornStage K T R → Phase K T R
  | whole phase => phase
  | writeSize change index record _ | copyBytes change index record _ =>
    .updateWrite change index record

variable [DecidableEq K] [TableRecord T K] (table : Table K B) (codec : Bincode T)
  (shared : Shared B)

/-- The first store of an update, unless the record is refused. -/
def startWrite (change : Update K T R) (index : Nat) (record : T) :
    TornEvent K T R × Shared B × TornStage K T R :=
  let refuse e : TornEvent K T R × Shared B × TornStage K T R :=
    (.moved (.wrote (.error e)), shared,
      .whole (.unlock (table.semaphores.recordNumber index) (change.failed e)))
  match codec.encode (change.apply record) with
  | .error e => refuse e
  | .ok data =>
    if data.length > shared.memory.slots.maxData then
      refuse (.recordSizeTooBig data.length shared.memory.slots.maxData)
    else
      (.wroteState, shared.withSlots (shared.memory.slots.writeState index .occupied),
        .writeSize change index record data)

def advance : TornStage K T R → Option (TornEvent K T R × Shared B × TornStage K T R)
  | .whole (.updateWrite change index record) =>
    some (startWrite table codec shared change index record)
  | .whole phase =>
    (phase.advance table codec shared).map
      (fun (event, after, next) => (.moved event, after, .whole next))
  | .writeSize change index record data =>
    some (.wroteSize, shared.withSlots (shared.memory.slots.writeSize index data.length),
      .copyBytes change index record data)
  | .copyBytes change index record data =>
    some (.copied change.key (change.apply record),
      shared.withSlots (shared.memory.slots.copyBytes index data),
      .whole (.unlock (table.semaphores.recordNumber index) (change.completed record)))

end TornStage

/-- A client makes any call that leaves the keys as they are. -/
inductive TornStep [DecidableEq K] [TableRecord T K] (table : Table K B) (codec : Bincode T)
    (shared : Shared B) :
    TornStage K T R → TornEvent K T R → Shared B → TornStage K T R → Prop where
  | called {operation : Operation K T R} : operation.KeepsKeys →
      TornStep table codec shared (.whole .idle) (.moved (.called operation)) shared
        (.whole operation.start)
  | replied {operation : Operation K T R} {answer : Reply T R} :
      TornStep table codec shared (.whole (.reply operation answer))
        (.moved (.replied operation answer)) shared (.whole .idle)
  | advanced {stage next : TornStage K T R} {event : TornEvent K T R} {after : Shared B} :
      stage.advance table codec shared = some (event, after, next) →
      TornStep table codec shared stage event after next

variable [DecidableEq K] [TableRecord T K] {table : Table K B} {codec : Bincode T}
  {capacity recordSize : Nat} {shared after : Shared B} {stage next : TornStage K T R}
  {event : TornEvent K T R} {records : Records K T} {settled : TableMemory B}

/-- A step in one piece, or one of the three stores. -/
inductive TornEffect (table : Table K B) (codec : Bincode T) (shared : Shared B) :
    TornStage K T R → TornEvent K T R → Shared B → TornStage K T R → Prop where
  | moved {phase next : Phase K T R} {event : Event K T R} {after : Shared B} :
      Effect table codec Operation.KeepsKeys shared phase event after next →
      event ≠ .wrote (.ok ()) →
      TornEffect table codec shared (.whole phase) (.moved event) after (.whole next)
  | wroteState {change : Update K T R} {index : Nat} {record : T} {data : List UInt8} :
      codec.encode (change.apply record) = .ok data →
      data.length ≤ shared.memory.slots.maxData →
      TornEffect table codec shared (.whole (.updateWrite change index record)) .wroteState
        (shared.withSlots (shared.memory.slots.writeState index .occupied))
        (.writeSize change index record data)
  | wroteSize {change : Update K T R} {index : Nat} {record : T} {data : List UInt8} :
      TornEffect table codec shared (.writeSize change index record data) .wroteSize
        (shared.withSlots (shared.memory.slots.writeSize index data.length))
        (.copyBytes change index record data)
  | copied {change : Update K T R} {index : Nat} {record : T} {data : List UInt8} :
      TornEffect table codec shared (.copyBytes change index record data)
        (.copied change.key (change.apply record))
        (shared.withSlots (shared.memory.slots.copyBytes index data))
        (.whole (.unlock (table.semaphores.recordNumber index) (change.completed record)))

omit [DecidableEq K] [TableRecord T K] in
theorem TornStage.startWrite_effect {change : Update K T R} {index : Nat} {record : T}
    (started : startWrite table codec shared change index record = (event, after, next)) :
    (∃ e, event = .moved (.wrote (.error e)) ∧ after = shared ∧
      Table.update codec shared.memory index (change.apply record) = (.error e, shared.memory) ∧
      next = .whole (.unlock (table.semaphores.recordNumber index) (change.failed e))) ∨
    ∃ data, codec.encode (change.apply record) = .ok data ∧
      data.length ≤ shared.memory.slots.maxData ∧ event = .wroteState ∧
      after = shared.withSlots (shared.memory.slots.writeState index .occupied) ∧
      next = .writeSize change index record data := by
  unfold startWrite at started
  split at started
  · rename_i e encoded
    cases started
    exact .inl ⟨e, rfl, rfl, by simp only [Table.update, encoded], rfl⟩
  · rename_i data encoded
    split at started
    · rename_i big
      cases started
      exact .inl ⟨_, rfl, rfl, by simp only [Table.update, encoded, Slots.update, big, if_true], rfl⟩
    · rename_i fits
      cases started
      exact .inr ⟨data, encoded, Nat.not_lt.mp fits, rfl, rfl, rfl⟩

theorem Effect.updateWrite_of_wrote {phase next : Phase K T R} {calls : Operation K T R → Prop}
    (effect : Effect table codec calls shared phase (.wrote (.ok ())) after next) :
    ∃ change index record, phase = .updateWrite change index record := by
  cases effect
  exact ⟨_, _, _, rfl⟩

theorem TornStep.effect (stepped : TornStep table codec shared stage event after next) :
    TornEffect table codec shared stage event after next := by
  cases stepped with
  | called permitted => exact .moved (.called permitted) nofun
  | replied => exact .moved .replied nofun
  | advanced advanced =>
    unfold TornStage.advance at advanced
    split at advanced
    · rename_i change index record
      obtain ⟨e, rfl, rfl, failed, rfl⟩ | ⟨data, encoded, fits, rfl, rfl, rfl⟩ :=
        TornStage.startWrite_effect (Option.some.inj advanced)
      · exact .moved (.unwritten failed) nofun
      · exact .wroteState encoded fits
    · rename_i phase whole
      obtain ⟨⟨event, after, next⟩, moves, same⟩ := Option.map_eq_some_iff.mp advanced
      cases same
      have effect : Effect table codec Operation.KeepsKeys shared phase event after next :=
        Phase.advance_effect moves
      refine .moved effect ?_
      rintro rfl
      obtain ⟨change, index, record, rfl⟩ := effect.updateWrite_of_wrote
      exact whole _ _ _ rfl
    · cases advanced
      exact .wroteSize
    · cases advanced
      exact .copied

/-- No find reads a slot between the second and the third store of an update,
unless the old bytes at the new length still decode to the old record. -/
def Untorn (codec : Bincode T) (config : Config ι (Shared B) (TornStage K T R)) :
    ι × TornEvent K T R → Prop
  | (_, .moved (.read _ index)) => ∀ d change record data,
      config.client d = .copyBytes change index record data →
      codec.decode (config.shared.memory.slots.get index) = .ok record
  | _ => True

/-! ### The memory as it is between updates -/

/-- The memory differs from the settled one only in the sizes of the slots
whose bytes are about to be copied. -/
structure Settles (settled memory : TableMemory B) (client : ι → TornStage K T R) : Prop where
  header : memory.header = settled.header
  index : memory.index = settled.index
  slotsHeader : memory.slots.header = settled.slots.header
  written : ∀ {i}, (∀ c change record data, client c ≠ .copyBytes change i record data) →
    memory.slots.slot i = settled.slots.slot i
  writing : ∀ {c change i record data}, client c = .copyBytes change i record data →
    memory.slots.slot i = { settled.slots.slot i with size := data.length }

/-- The slot that the next step reads. -/
def Phase.reads : Phase K T R → Option Nat
  | .findRead _ index | .locked (.update _ index) => some index
  | _ => none

omit [DecidableEq K] [TableRecord T K] in
theorem Table.get_congr {memory : TableMemory B} {index : Nat} (header : memory.header = settled.header)
    (same : codec.decode (memory.slots.get index) = codec.decode (settled.slots.get index)) :
    Table.get codec memory index = Table.get codec settled index := by
  simp only [Table.get, header, same]

omit [DecidableEq K] [TableRecord T K] in
/-- Whether a record is refused does not depend on the contents of the slots. -/
theorem Table.update_error {memory refused : TableMemory B} {index : Nat} {record : T}
    {e : InMemoryTableError} (header : memory.slots.header = settled.slots.header)
    (updated : Table.update codec memory index record = (.error e, refused)) :
    refused = memory ∧ Table.update codec settled index record = (.error e, settled) := by
  unfold Table.update at updated ⊢
  cases encoded : codec.encode record with
  | error e =>
    simp only [encoded] at updated ⊢
    cases updated
    exact ⟨rfl, rfl⟩
  | ok data =>
    simp only [encoded, Slots.update, Slots.maxData, header] at updated ⊢
    by_cases big : data.length > wrappingSub settled.slots.header.slotSize Slots.slotMetadataSize
    · simp only [big, if_true] at updated ⊢
      cases updated
      exact ⟨rfl, rfl⟩
    · simp only [big, if_false] at updated
      cases updated

/-- A step in one piece is the same step on the settled memory, if the slot that
it reads decodes alike. -/
theorem Effect.on_settled {phase next : Phase K T R} {event : Event K T R}
    {client : ι → TornStage K T R}
    (effect : Effect table codec Operation.KeepsKeys shared phase event after next)
    (within : phase.Within Operation.KeepsKeys) (settles : Settles settled shared.memory client)
    (reads : ∀ i, phase.reads = some i →
      codec.decode (shared.memory.slots.get i) = codec.decode (settled.slots.get i))
    (unwritten : event ≠ .wrote (.ok ())) :
    Effect table codec Operation.KeepsKeys { memory := settled, semaphores := shared.semaphores }
      phase event { memory := settled, semaphores := after.semaphores } next ∧
    after.memory = shared.memory := by
  cases effect with
  | called permitted => exact ⟨.called permitted, rfl⟩
  | replied => exact ⟨.replied, rfl⟩
  | searched found =>
    rw [settles.index] at found
    exact ⟨.searched found, rfl⟩
  | @found key index =>
    rw [Table.get_congr settles.header (reads index rfl)]
    exact ⟨.found, rfl⟩
  | refused refused => exact ⟨.refused refused, rfl⟩
  | locked valid positive => exact ⟨.locked valid positive, rfl⟩
  | @unread change index e failed =>
    rw [Table.get_congr settles.header (reads index rfl)] at failed
    exact ⟨.unread failed, rfl⟩
  | @applied change index record got =>
    rw [Table.get_congr settles.header (reads index rfl)] at got
    exact ⟨.applied got, rfl⟩
  | unwritten failed =>
    obtain ⟨rfl, refused⟩ := Table.update_error settles.slotsHeader failed
    exact ⟨.unwritten refused, rfl⟩
  | written => exact absurd rfl unwritten
  | unlocked => exact ⟨.unlocked, rfl⟩
  | _ => exact (within _ rfl).elim

omit [DecidableEq K] [TableRecord T K] in
/-- A step that neither begins nor ends the copying of bytes, nor writes. -/
theorem Settles.moved [DecidableEq ι] {config : Config ι (Shared B) (TornStage K T R)} {c : ι}
    {stage : TornStage K T R}
    (settles : Settles settled config.shared.memory config.client)
    (same : shared.memory = config.shared.memory)
    (before : ∀ change index record data, config.client c ≠ .copyBytes change index record data)
    (after : ∀ change index record data, stage ≠ .copyBytes change index record data) :
    Settles settled shared.memory (config.moved c shared stage).client := by
  rw [same]
  refine ⟨settles.header, settles.index, settles.slotsHeader, ?_, ?_⟩
  · intro i free
    apply settles.written
    intro d change record data writing
    by_cases mine : d = c
    · subst mine
      exact before _ _ _ _ writing
    · exact free d change record data (by rwa [Config.moved_other _ _ _ _ mine])
  · intro d change i record data writing
    by_cases mine : d = c
    · subst mine
      rw [Config.moved_self] at writing
      exact absurd writing (after _ _ _ _)
    · rw [Config.moved_other _ _ _ _ mine] at writing
      exact settles.writing writing

/-- The record that is being written serializes and fits. -/
def TornStage.Encoded (codec : Bincode T) (recordSize : Nat) : TornStage K T R → Prop
  | .whole _ => True
  | .writeSize change _ record data | .copyBytes change _ record data =>
    codec.encode (change.apply record) = .ok data ∧ data.length ≤ recordSize

structure Torn (table : Table K B) (codec : Bincode T) (capacity recordSize : Nat)
    (config : Config ι (Shared B) (TornStage K T R)) (settled : TableMemory B)
    (records : Records K T) : Prop where
  settles : Settles settled config.shared.memory config.client
  exclusive : Exclusive table (config.map TornStage.phase)
  holds : table.Holds codec capacity recordSize settled records
  within : ∀ c, (config.client c).phase.Within Operation.KeepsKeys
  located : ∀ c, (config.client c).phase.Located records
  finds : ∀ c, (config.client c).phase.Finds records
  encoded : ∀ c, (config.client c).Encoded codec recordSize

namespace Torn
variable {config last : Config ι (Shared B) (TornStage K T R)} {c : ι}

omit [TableRecord T K] in
/-- The slot of an update whose bytes are not yet copied belongs to its key. -/
theorem lookup_writing (torn : Torn table codec capacity recordSize config settled records)
    {change : Update K T R} {index : Nat} {record : T} {data : List UInt8}
    (writing : config.client c = .copyBytes change index record data) :
    records.lookup change.key = some (index, record) := by
  have located := torn.located c
  rwa [writing] at located

omit [TableRecord T K] in
/-- Who holds the semaphore of a record is the only one to copy its bytes. -/
theorem writing_alone (torn : Torn table codec capacity recordSize config settled records) {d : ι}
    {index : Nat} {change : Update K T R} {record : T} {data : List UInt8}
    (held : (config.client c).phase.holding table = some (table.semaphores.recordNumber index))
    (writing : config.client d = .copyBytes change index record data) : d = c := by
  refine torn.exclusive.same_client ?_ held
  simp only [Config.map, writing]
  rfl

omit [TableRecord T K] in
/-- A slot whose semaphore a client holds is settled until it copies bytes. -/
theorem slot_locked (torn : Torn table codec capacity recordSize config settled records) {index : Nat}
    (held : (config.client c).phase.holding table = some (table.semaphores.recordNumber index))
    (before : ∀ change record data, config.client c ≠ .copyBytes change index record data) :
    config.shared.memory.slots.slot index = settled.slots.slot index := by
  apply torn.settles.written
  intro d change record data writing
  obtain rfl := torn.writing_alone held writing
  exact before _ _ _ writing

omit [TableRecord T K] in
/-- So is, in effect, one that a find reads where it may. -/
theorem decode_found (torn : Torn table codec capacity recordSize config settled records)
    {index : Nat} (untorn : ∀ d change record data,
      config.client d = .copyBytes change index record data →
      codec.decode (config.shared.memory.slots.get index) = .ok record) :
    codec.decode (config.shared.memory.slots.get index) = codec.decode (settled.slots.get index) := by
  by_cases writing : ∃ d change record data, config.client d = .copyBytes change index record data
  · obtain ⟨d, change, record, data, writing⟩ := writing
    rw [untorn d change record data writing,
      (torn.holds.stored (torn.lookup_writing writing)).2]
  · have same : config.shared.memory.slots.slot index = settled.slots.slot index :=
      torn.settles.written (fun d change record data same => writing ⟨d, change, record, data, same⟩)
    rw [Slots.get_congr same]

variable [DecidableEq ι]

omit [TableRecord T K] in
/-- The client stays in its phase. -/
theorem same_phase (torn : Torn table codec capacity recordSize config settled records)
    {shared : Shared B} {stage : TornStage K T R}
    (semaphores : shared.semaphores = config.shared.semaphores)
    (same : stage.phase = (config.client c).phase)
    (settles : Settles settled shared.memory (config.moved c shared stage).client)
    (encoded : stage.Encoded codec recordSize) :
    Torn table codec capacity recordSize (config.moved c shared stage) settled records where
  settles := settles
  exclusive := by
    have phases : (config.moved c shared stage).map TornStage.phase =
        ⟨shared, (config.map TornStage.phase).client⟩ := by
      rw [Config.map_moved, same]
      simp only [Config.moved, Config.map, Function.update_eq_self_iff.mpr]
    rw [phases, Exclusive, semaphores]
    exact torn.exclusive
  holds := torn.holds
  within := config.moved_forall c _ _ (P := fun _ stage => stage.phase.Within Operation.KeepsKeys)
    (by rw [same]; exact torn.within c) (fun d _ => torn.within d)
  located := config.moved_forall c _ _ (P := fun _ stage => stage.phase.Located records)
    (by rw [same]; exact torn.located c) (fun d _ => torn.located d)
  finds := config.moved_forall c _ _ (P := fun _ stage => stage.phase.Finds records)
    (by rw [same]; exact torn.finds c) (fun d _ => torn.finds d)
  encoded := config.moved_forall c _ _ (P := fun _ stage => stage.Encoded codec recordSize) encoded
    (fun d _ => torn.encoded d)

theorem moved (torn : Torn table codec capacity recordSize config settled records)
    (serves : table.Serves capacity) {phase next : Phase K T R} {event : Event K T R}
    {shared : Shared B} (own : config.client c = .whole phase)
    (effect : Effect table codec Operation.KeepsKeys config.shared phase event shared next)
    (unwritten : event ≠ .wrote (.ok ())) (untorn : Untorn codec config (c, .moved event)) :
    Torn table codec capacity recordSize (config.moved c shared (.whole next)) settled records ∧
      ∀ {key result}, next = .reply (.find key) (.found result) →
        result = .ok (records.under key) := by
  have within : phase.Within Operation.KeepsKeys := by
    have within := torn.within c
    rwa [own] at within
  have located : phase.Located records := by
    have located := torn.located c
    rwa [own] at located
  have finds : phase.Finds records := by
    have finds := torn.finds c
    rwa [own] at finds
  have reads : ∀ i, phase.reads = some i → codec.decode (config.shared.memory.slots.get i) =
      codec.decode (settled.slots.get i) := by
    intro i reads
    cases phase with
    | findRead key index =>
      cases reads
      cases effect with
      | found => exact torn.decode_found untorn
    | locked task =>
      cases task with
      | update change index =>
        cases reads
        rw [Slots.get_congr (torn.slot_locked (by rw [own]; rfl) (by simp [own]))]
      | _ => cases reads
    | _ => cases reads
  obtain ⟨calm, same⟩ := effect.on_settled within torn.settles reads unwritten
  obtain ⟨records', serving⟩ := calm.serving within serves torn.holds located finds
  obtain rfl := serving.progress.unstored unwritten
  have exclusive : Exclusive table ((config.moved c shared (.whole next)).map TornStage.phase) := by
    have stepped : Step (Effect table codec Operation.KeepsKeys) (config.map TornStage.phase)
        (c, event) ((config.map TornStage.phase).moved c shared next) := by
      refine .move ?_
      change Effect _ _ _ config.shared (config.client c).phase event shared next
      rw [own]
      exact effect
    rw [Config.map_moved]
    exact torn.exclusive.step stepped
  refine ⟨⟨torn.settles.moved same (by simp [own]) (by simp), exclusive, serving.holds, ?_, ?_, ?_, ?_⟩,
    serving.answer⟩
  · exact config.moved_forall c _ _ (P := fun _ stage => stage.phase.Within Operation.KeepsKeys)
      (effect.within within) (fun d _ => torn.within d)
  · exact config.moved_forall c _ _ (P := fun _ stage => stage.phase.Located records')
      serving.located (fun d _ => torn.located d)
  · exact config.moved_forall c _ _ (P := fun _ stage => stage.phase.Finds records')
      serving.finds (fun d _ => torn.finds d)
  · exact config.moved_forall c _ _ (P := fun _ stage => stage.Encoded codec recordSize) trivial
      (fun d _ => torn.encoded d)

omit [TableRecord T K] in
/-- The first store changes nothing: the slot is in use already. -/
theorem wroteState (torn : Torn table codec capacity recordSize config settled records)
    {change : Update K T R} {index : Nat} {record : T} {data : List UInt8}
    (own : config.client c = .whole (.updateWrite change index record))
    (encoded : codec.encode (change.apply record) = .ok data)
    (fits : data.length ≤ config.shared.memory.slots.maxData) :
    Torn table codec capacity recordSize
      (config.moved c
        (config.shared.withSlots (config.shared.memory.slots.writeState index .occupied))
        (.writeSize change index record data)) settled records := by
  have lookup : records.lookup change.key = some (index, record) := by
    have located := torn.located c
    rwa [own] at located
  have used : (config.shared.memory.slots.slot index).state = .occupied := by
    rw [torn.slot_locked (by rw [own]; rfl) (by simp [own])]
    exact (torn.holds.stored lookup).1.2
  rw [Slots.writeState_self used]
  refine torn.same_phase rfl (by rw [own]; rfl) ?_ ⟨encoded, ?_⟩
  · exact torn.settles.moved rfl (by simp [own]) (by simp)
  · rwa [Slots.maxData, torn.settles.slotsHeader, ← Slots.maxData, torn.holds.slots.maxData] at fits

omit [TableRecord T K] in
theorem wroteSize (torn : Torn table codec capacity recordSize config settled records)
    {change : Update K T R} {index : Nat} {record : T} {data : List UInt8}
    (own : config.client c = .writeSize change index record data) :
    Torn table codec capacity recordSize
      (config.moved c (config.shared.withSlots (config.shared.memory.slots.writeSize index data.length))
        (.copyBytes change index record data)) settled records := by
  have held : (config.client c).phase.holding table = some (table.semaphores.recordNumber index) := by
    rw [own]
    rfl
  have encoded := torn.encoded c
  rw [own] at encoded
  refine torn.same_phase rfl (by rw [own]; rfl) ⟨torn.settles.header, torn.settles.index,
    torn.settles.slotsHeader, ?_, ?_⟩ encoded
  · intro i free
    have apart : i ≠ index := by
      rintro rfl
      exact free c change record data (Config.moved_self ..)
    rw [Shared.withSlots_slots, Slots.writeSize_other apart]
    apply torn.settles.written
    intro d other record' data' writing
    by_cases mine : d = c
    · subst mine
      simp [own] at writing
    · exact free d other record' data' (by rwa [Config.moved_other _ _ _ _ mine])
  · intro d other i record' data' writing
    by_cases mine : d = c
    · subst mine
      rw [Config.moved_self] at writing
      cases writing
      rw [Shared.withSlots_slots, Slots.writeSize_self, torn.slot_locked held (by simp [own])]
    · rw [Config.moved_other _ _ _ _ mine] at writing
      have apart : i ≠ index := by
        rintro rfl
        exact mine (torn.writing_alone held writing)
      rw [Shared.withSlots_slots, Slots.writeSize_other apart, torn.settles.writing writing]

omit [TableRecord T K] in
/-- With its third store an update is settled. -/
theorem copied (torn : Torn table codec capacity recordSize config settled records)
    {change : Update K T R} {index : Nat} {record : T} {data : List UInt8}
    (own : config.client c = .copyBytes change index record data) :
    ∃ settled', Torn table codec capacity recordSize
      (config.moved c (config.shared.withSlots (config.shared.memory.slots.copyBytes index data))
        (.whole (.unlock (table.semaphores.recordNumber index) (change.completed record)))) settled'
      (records.insert change.key (index, change.apply record)) := by
  have held : (config.client c).phase.holding table = some (table.semaphores.recordNumber index) := by
    rw [own]
    rfl
  have lookup := torn.lookup_writing own
  have used := (torn.holds.stored lookup).1
  obtain ⟨encoded, fits⟩ : codec.encode (change.apply record) = .ok data ∧ data.length ≤ recordSize := by
    have encoded := torn.encoded c
    rwa [own] at encoded
  have updated : Slots.Updated settled.slots index data (settled.slots.setRecordData index data) := by
    obtain ⟨big, _⟩ | ⟨_, slots, same, updated⟩ := torn.holds.slots.update_cases used data
    · omega
    · rw [Slots.update, torn.holds.slots.maxData, if_neg (Nat.not_lt.mpr fits)] at same
      cases same
      exact updated
  have unlocking : (change.completed record).operation.IsUpdate := by
    rw [Update.operation_completed]
    exact change.isUpdate
  refine ⟨{ settled with slots := settled.slots.setRecordData index data }, ?_, ?_,
    torn.holds.replace lookup encoded updated, ?_, ?_, ?_, ?_⟩
  · refine ⟨torn.settles.header, torn.settles.index, torn.settles.slotsHeader, ?_, ?_⟩
    · intro i free
      rw [Config.moved_shared, Shared.withSlots_slots]
      by_cases here : i = index
      · subst here
        rw [Slots.copyBytes_self, Slots.setRecordData_self, torn.settles.writing own]
        simp [used.2]
      · rw [Slots.copyBytes_other here, Slots.setRecordData_other here]
        apply torn.settles.written
        intro d other record' data' writing
        by_cases mine : d = c
        · subst mine
          rw [own] at writing
          cases writing
          exact here rfl
        · exact free d other record' data' (by rwa [Config.moved_other _ _ _ _ mine])
    · intro d other i record' data' writing
      have mine : d ≠ c := by
        rintro rfl
        rw [Config.moved_self] at writing
        cases writing
      rw [Config.moved_other _ _ _ _ mine] at writing
      have apart : i ≠ index := by
        rintro rfl
        exact mine (torn.writing_alone held writing)
      rw [Config.moved_shared, Shared.withSlots_slots, Slots.copyBytes_other apart,
        Slots.setRecordData_other apart, torn.settles.writing writing]
  · rw [Config.map_moved, Exclusive, Config.moved_comp, Config.moved_shared,
      Function.update_eq_self_iff.mpr]
    · exact torn.exclusive
    · exact held.symm
  · refine config.moved_forall c _ _ (P := fun _ stage => stage.phase.Within Operation.KeepsKeys) ?_
      (fun d _ => torn.within d)
    rintro operation ⟨⟩
    exact unlocking.keepsKeys
  · refine config.moved_forall c _ _ (P := fun _ stage => stage.phase.Located _) trivial ?_
    intro d different
    refine (torn.located d).insert lookup (fun other working same => different ?_)
    have mine : ((config.map TornStage.phase).client c).updating = some change := by
      simp only [Config.map, own]
      rfl
    exact torn.exclusive.same_update torn.located mine working same
  · exact config.moved_forall c _ _ (P := fun _ stage => stage.phase.Finds _) unlocking
      (fun d _ => (torn.finds d).insert lookup)
  · exact config.moved_forall c _ _ (P := fun _ stage => stage.Encoded codec recordSize) trivial
      (fun d _ => torn.encoded d)

end Torn

/-! ### What was stored, and when -/

section History
omit [TableRecord T K]

/-- The records completely stored after an event. -/
def TornEvent.stored (under : K → Option T) : TornEvent K T R → K → Option T
  | .copied key record => Function.update under key (some record)
  | _ => under

def storedAfter (initial : K → Option T) (trace : List (ι × TornEvent K T R)) : K → Option T :=
  trace.foldl (fun under label => label.2.stored under) initial

theorem storedAfter_append (initial : K → Option T) (trace : List (ι × TornEvent K T R))
    (label : ι × TornEvent K T R) :
    storedAfter initial (trace ++ [label]) = label.2.stored (storedAfter initial trace) :=
  List.foldl_append ..

/-- It was stored under the key at some moment since the last call of the client. -/
def StoredSince (initial : K → Option T) (trace : List (ι × TornEvent K T R)) (c : ι) (key : K)
    (found : Option T) : Prop :=
  ∃ before since, trace = before ++ since ∧
    (∀ operation, (c, .moved (.called operation)) ∉ since) ∧ storedAfter initial before key = found

/-- Who is about to answer a find answers with what was stored during the call. -/
def Answering (initial : K → Option T) (trace : List (ι × TornEvent K T R))
    (config : Config ι (Shared B) (TornStage K T R)) : Prop :=
  ∀ c key result, config.client c = .whole (.reply (.find key) (.found result)) →
    ∃ found, result = .ok found ∧ StoredSince initial trace c key found

variable [DecidableEq ι] {config : Config ι (Shared B) (TornStage K T R)} {initial : K → Option T}
  {past : List (ι × TornEvent K T R)}

theorem Answering.moved (answering : Answering initial past config) (c : ι) (event : TornEvent K T R)
    (shared : Shared B) (stage : TornStage K T R)
    (own : ∀ {key result}, stage = .whole (.reply (.find key) (.found result)) →
      result = .ok (storedAfter initial (past ++ [(c, event)]) key)) :
    Answering initial (past ++ [(c, event)]) (config.moved c shared stage) := by
  intro d key result replying
  by_cases mine : d = c
  · subst mine
    rw [Config.moved_self] at replying
    exact ⟨_, own replying, _, [], (List.append_nil _).symm, by simp, rfl⟩
  · rw [Config.moved_other _ _ _ _ mine] at replying
    obtain ⟨found, answer, before, since, rfl, within, stored⟩ := answering d key result replying
    refine ⟨found, answer, before, since ++ [(c, event)], List.append_assoc .., ?_, stored⟩
    intro operation member
    rcases List.mem_append.mp member with member | member
    · exact within operation member
    · exact mine (congrArg Prod.fst (List.mem_singleton.mp member))

end History

section Run
variable [DecidableEq ι] {config last : Config ι (Shared B) (TornStage K T R)}
  {trace past : List (ι × TornEvent K T R)} {label : ι × TornEvent K T R}
  {initial : K → Option T}

/-- What holds along every run in which no find reads a torn slot. -/
def TornHistory (table : Table K B) (codec : Bincode T) (capacity recordSize : Nat)
    (initial : K → Option T) (past : List (ι × TornEvent K T R))
    (config : Config ι (Shared B) (TornStage K T R)) : Prop :=
  (∃ settled records, Torn table codec capacity recordSize config settled records ∧
    records.under = storedAfter initial past) ∧ Answering initial past config

theorem TornHistory.step (history : TornHistory table codec capacity recordSize initial past config)
    (serves : table.Serves capacity)
    (stepped : Guarded (Step (TornStep table codec)) (Untorn codec) config label last) :
    TornHistory table codec capacity recordSize initial (past ++ [label]) last := by
  obtain ⟨⟨settled, records, torn, under⟩, answering⟩ := history
  obtain ⟨⟨stepped⟩, untorn⟩ := stepped
  rename_i c event shared stage
  generalize own : config.client c = before at stepped
  cases stepped.effect with
  | @moved phase next event _ effect unwritten =>
    obtain ⟨torn', answer⟩ := torn.moved serves own effect unwritten untorn
    have still : records.under = storedAfter initial (past ++ [(c, .moved event)]) := by
      rw [storedAfter_append, under]
      rfl
    refine ⟨⟨settled, records, torn', still⟩, answering.moved c _ _ _ ?_⟩
    rintro key result ⟨⟩
    rw [← still]
    exact answer rfl
  | wroteState encoded fits =>
    refine ⟨⟨settled, records, torn.wroteState own encoded fits, ?_⟩, answering.moved c _ _ _ nofun⟩
    rw [storedAfter_append, under]
    rfl
  | wroteSize =>
    refine ⟨⟨settled, records, torn.wroteSize own, ?_⟩, answering.moved c _ _ _ nofun⟩
    rw [storedAfter_append, under]
    rfl
  | copied =>
    obtain ⟨settled', torn'⟩ := torn.copied own
    refine ⟨⟨settled', _, torn', ?_⟩, answering.moved c _ _ _ nofun⟩
    rw [storedAfter_append, Records.under_insert, under]
    rfl

theorem TornStep.replying {c : ι} {operation : Operation K T R} {answer : Reply T R}
    (stepped : Step (TornStep table codec) config (c, .moved (.replied operation answer)) last) :
    config.client c = .whole (.reply operation answer) := by
  obtain ⟨stepped⟩ := stepped
  generalize config.client c = before at stepped
  cases stepped.effect with
  | moved effect _ =>
    cases effect
    rfl

/-- A find that reads a torn slot does not come to the record stored then. -/
theorem TornHistory.torn_read (history : TornHistory table codec capacity recordSize initial past config)
    {c : ι} {event : TornEvent K T R} (stepped : Step (TornStep table codec) config (c, event) last)
    (unguarded : ¬ Untorn codec config (c, event)) :
    ∃ key result, last.client c = .whole (.reply (.find key) (.found result)) ∧
      result ≠ .ok (storedAfter initial past key) := by
  obtain ⟨⟨settled, records, torn, under⟩, _⟩ := history
  obtain ⟨stepped⟩ := stepped
  rename_i shared stage
  generalize own : config.client c = before at stepped
  cases stepped.effect with
  | @moved phase next event _ effect _ =>
    cases event with
    | read key index =>
      cases effect with
      | found =>
        refine ⟨key, _, Config.moved_self .., ?_⟩
        simp only [Untorn, not_forall] at unguarded
        obtain ⟨d, change, record, data, writing, mixed⟩ := unguarded
        have lookup := torn.lookup_writing writing
        obtain ⟨record', lookup'⟩ : ∃ record', records.lookup key = some (index, record') := by
          have finds := torn.finds c
          rwa [own] at finds
        obtain rfl := torn.holds.distinct lookup lookup'
        rw [← under, Records.under, lookup]
        intro answer
        unfold Table.get at answer
        split at answer
        · cases answer
        · cases decoded : codec.decode (config.shared.memory.slots.get index) with
          | error e => simp [decoded, Except.map] at answer
          | ok found =>
            simp [decoded, Except.map] at answer
            exact mixed (by rw [decoded, answer])
    | _ => exact absurd trivial unguarded
  | _ => exact absurd trivial unguarded

end Run

/-- Finds beside updates: in every run in which no find reads a torn slot, a find
never fails and answers with a record that was completely stored during the
call; a find that reads a torn slot does not come to the record stored then. -/
theorem finds_see_stored [DecidableEq ι] (serves : table.Serves capacity) (records : Records K T)
    (config : Config ι (Shared B) (TornStage K T R))
    (holds : table.Holds codec capacity recordSize config.shared.memory records)
    (free : ∀ x < table.semaphores.stripes, config.shared.semaphores x = 1)
    (idle : ∀ c, config.client c = .whole .idle) :
    (∀ trace last,
      Run (Guarded (Step (TornStep table codec)) (Untorn codec)) config trace last →
      ∀ past c key result rest,
        trace = past ++ (c, .moved (.replied (.find key) (.found result))) :: rest →
        (∀ e, result ≠ .error e) ∧
        ∀ record, result = .ok (some record) → StoredSince records.under past c key (some record)) ∧
    ∀ trace middle c event after,
      Run (Guarded (Step (TornStep table codec)) (Untorn codec)) config trace middle →
      Step (TornStep table codec) middle (c, event) after → ¬ Untorn codec middle (c, event) →
      ∃ key result, after.client c = .whole (.reply (.find key) (.found result)) ∧
        result ≠ .ok (storedAfter records.under trace key) := by
  have initial : TornHistory table codec capacity recordSize records.under [] config := by
    refine ⟨⟨config.shared.memory, records, ⟨⟨rfl, rfl, rfl, fun _ => rfl, ?_⟩, ?_, holds, ?_, ?_, ?_, ?_⟩,
      rfl⟩, ?_⟩
    · intro i c change record data writing
      simp [idle] at writing
    · exact Quiet.exclusive ⟨free, fun c => by simp only [Config.map, idle]; rfl⟩
    · intro c operation current
      rw [idle c] at current
      cases current
    · intro c
      rw [idle c]
      trivial
    · intro c
      rw [idle c]
      trivial
    · intro c
      rw [idle c]
      trivial
    · intro c key result replying
      rw [idle c] at replying
      cases replying
  have histories : ∀ {trace last},
      Run (Guarded (Step (TornStep table codec)) (Untorn codec)) config trace last →
      TornHistory table codec capacity recordSize records.under trace last := by
    intro trace last run
    exact run.history (fun history stepped => history.step serves stepped) [] initial
  constructor
  · rintro trace last run past c key result rest rfl
    obtain ⟨middle, _, before, ⟨stepped, _⟩, _⟩ := run.split
    have replying := TornStep.replying stepped
    obtain ⟨found, rfl, stored⟩ := (histories before).2 c key result replying
    refine ⟨by simp, ?_⟩
    rintro record ⟨⟩
    exact stored
  · intro trace middle c event after run stepped unguarded
    exact (histories run).torn_read stepped unguarded

/-! ### Records of different lengths -/

/-- A key and a byte sequence with its length in front. -/
def Bincode.prefixed : Bincode (UInt8 × List UInt8) where
  serialize record :=
    if record.2.length < 256 then .ok (record.1 :: UInt8.ofNat record.2.length :: record.2)
    else .error "the size limit has been reached"
  deserialize
    | key :: length :: bytes =>
      if bytes.length < length.toNat then .error "io error: unexpected end of file"
      else .ok (key, bytes.take length.toNat)
    | _ => .error "io error: unexpected end of file"
  deserialize_serialize := by
    intro record bytes serialized
    split at serialized
    · rename_i short
      cases serialized
      have length : (UInt8.ofNat record.2.length).toNat = record.2.length := by
        rw [UInt8.toNat_ofNat', Nat.mod_eq_of_lt short]
      simp [length]
    · cases serialized

instance : TableRecord (UInt8 × List UInt8) UInt8 where
  key := Prod.fst

def oneText : Table UInt8 (Node UInt8) := .handle (.cell UInt8) UInt8.toNat 0 1

/-- A table with the record `(1, [5, 6])`, nobody in a call. -/
def tornStart : Config Bool (Shared (Node UInt8)) (TornStage UInt8 (UInt8 × List UInt8) Unit) :=
  { shared :=
      { memory := oneText.runAll .prefixed
          (Table.createWithSize (.cell UInt8) UInt8.toNat 0 1 8 (fun _ => ⟨.free, 0, []⟩)
            (fun _ => ⟨.free, 0, []⟩)).2
          [(.insert (1, [5, 6]) : Operation UInt8 (UInt8 × List UInt8) Unit)]
        semaphores := fun _ => 1 }
    client := fun _ => .whole .idle }

theorem oneText_serves : oneText.Serves 1 :=
  Table.handle_serves _ _ 0 (by decide)

theorem tornStart_holds : ∃ records : Records UInt8 (UInt8 × List UInt8),
    oneText.Holds .prefixed 1 8 tornStart.shared.memory records := by
  have created : oneText.Holds .prefixed 1 8
      (Table.createWithSize (.cell UInt8) UInt8.toNat 0 1 8 (fun _ => ⟨.free, 0, []⟩)
        (fun _ => ⟨.free, 0, []⟩)).2 (∅ : Records UInt8 (UInt8 × List UInt8)) :=
    .of_create (.cell UInt8) UInt8.toNat 0 _ _ (by decide)
  obtain ⟨records, holds, _⟩ := created.runAll oneText_serves nofun
    [(.insert (1, [5, 6]) : Operation UInt8 (UInt8 × List UInt8) Unit)]
    (by simp [Operation.KeepsKey])
  exact ⟨records, holds⟩

/-- The update makes the record one byte shorter. -/
def shorten : Operation UInt8 (UInt8 × List UInt8) Unit :=
  .updateWithLock 1 (fun record => ((), (record.1, [7])))

theorem shorten_keepsKeys : shorten.KeepsKeys := trivial

theorem find_keepsKeys : (.find 1 : Operation UInt8 (UInt8 × List UInt8) Unit).KeepsKeys := trivial

/-- A find between the first and the second store answers with the old record. -/
theorem finds_see_stored_sample :
    ∃ records : Records UInt8 (UInt8 × List UInt8), ∃ trace last past,
      Run (Guarded (Step (TornStep oneText .prefixed)) (Untorn .prefixed)) tornStart trace last ∧
      trace = past ++ [(false, .moved (.replied (.find 1) (.found (.ok (some (1, [5, 6]))))))] ∧
      StoredSince records.under past false 1 (some (1, [5, 6])) := by
  obtain ⟨records, holds⟩ := tornStart_holds
  have run : ∃ past last,
      Run (Guarded (Step (TornStep oneText .prefixed)) (Untorn .prefixed)) tornStart
        (past ++ [(false, .moved (.replied (.find 1) (.found (.ok (some (1, [5, 6]))))))]) last := by
    refine ⟨[_, _, _, _, _, _, _, _], _,
      .next ⟨.move (c := true) (.called shorten_keepsKeys), trivial⟩
      (.next ⟨.again (.advanced rfl), trivial⟩ (.next ⟨.again (.advanced rfl), trivial⟩
        (.next ⟨.again (.advanced rfl), trivial⟩ (.next ⟨.again (.advanced rfl), trivial⟩
          (.next ⟨.move (c := false) (.called find_keepsKeys), trivial⟩
            (.next ⟨.again (.advanced rfl), trivial⟩ (.next ⟨.again (.advanced rfl), ?_⟩
              (.next ⟨.again .replied, trivial⟩ (.refl _)))))))))⟩
    intro d change record data writing
    cases d <;> cases writing
  obtain ⟨past, last, run⟩ := run
  have seen := (finds_see_stored oneText_serves records tornStart holds (fun _ _ => rfl)
    (fun _ => rfl)).1 _ last run past false 1 (.ok (some (1, [5, 6]))) [] rfl
  exact ⟨records, _, last, past, run, rfl, seen.2 _ rfl⟩

/-- A find between the second and the third store reads the old bytes at the new
length and fails. -/
theorem finds_read_torn_records :
    ¬ ∀ trace last, Run (Step (TornStep oneText .prefixed)) tornStart trace last →
      ∀ past c key result rest,
        trace = past ++ (c, .moved (.replied (.find key) (.found result))) :: rest →
        ∀ e, result ≠ .error e := by
  intro clean
  exact clean _ _ (.next (.move (c := true) (.called shorten_keepsKeys))
    (.next (.again (.advanced rfl)) (.next (.again (.advanced rfl)) (.next (.again (.advanced rfl))
      (.next (.again (.advanced rfl)) (.next (.again (.advanced rfl))
        (.next (.move (c := false) (.called find_keepsKeys))
          (.next (.again (.advanced rfl)) (.next (.again (.advanced rfl))
            (.next (.again .replied) (.refl _))))))))))) [_, _, _, _, _, _, _, _, _] false 1 _ []
    rfl (.deserializationError "io error: unexpected end of file") rfl

end InMemoryTable
