import InMemoryTable.Linkage
import InMemoryTable.Start

/-! Lookups under concurrent insertions and removals. A client looks the slot of a
key up first and reads it later, and a removal frees the slot before it unlinks it. -/
namespace InMemoryTable
open Interleaving Transition

variable {K T R B ι : Type} [TableRecord T K]

theorem Update.key_apply {change : Update K T R} (keeps : change.operation.KeepsKey) (record : T) :
    TableRecord.key (change.apply record) = (TableRecord.key record : K) := by
  cases change with
  | withLock key f => exact keeps record
  | many key updater keys rest found => exact keeps record

/-- The slot whose semaphore a client holds while it works on it. -/
def Phase.slot : Phase K T R → Option Nat
  | .locked (.update _ index) | .locked (.remove _ index) | .updateWrite _ index _
  | .removeInside _ index | .removeIndex _ index => some index
  | _ => none

/-- The client is between the two halves of a removal. -/
def Phase.unlinking : Phase K T R → Option (K × Nat)
  | .removeIndex key index => some (key, index)
  | _ => none

section Slot
omit [TableRecord T K]

theorem Phase.slot_holding {table : Table K B} {phase : Phase K T R} {index : Nat}
    (works : phase.slot = some index) :
    phase.holding table = some (table.semaphores.recordNumber index) := by
  cases phase with
  | locked task =>
    cases task with
    | insert record => cases works
    | update change i =>
      cases works
      rfl
    | remove key i =>
      cases works
      rfl
  | updateWrite change i record =>
    cases works
    rfl
  | removeInside key i =>
    cases works
    rfl
  | removeIndex key i =>
    cases works
    rfl
  | _ => cases works

theorem Phase.unlinking_iff {phase : Phase K T R} {key : K} {index : Nat} :
    phase.unlinking = some (key, index) ↔ phase = .removeIndex key index := by
  cases phase <;> simp [unlinking]

end Slot

/-- What a call may answer: a search finds a record of its key or none, and an
update applies its closure to a record of its key or finds none. -/
def Answered (codec : Bincode T) (recordSize : Nat) (answer : Reply T R) :
    Operation K T R → Prop
  | .find key =>
    answer = .found (.ok none) ∨
      ∃ record, answer = .found (.ok (some record)) ∧ TableRecord.key record = key
  | .updateWithLock key f =>
    answer = .updated (.ok none) ∨ ∃ record, TableRecord.key record = key ∧
      ((Records.accept codec recordSize (f record).2 = .ok () ∧
          answer = .updated (.ok (some (f record).1))) ∨
        ∃ e, Records.accept codec recordSize (f record).2 = .error e ∧
          answer = .updated (.error e))
  | _ => True

/-- The slot stores the record, and no live entry names it. -/
structure Waiting (codec : Bincode T) (memory : TableMemory B) (linkage : Linkage K) (record : T)
    (index : Nat) : Prop where
  used : memory.slots.Occupied index
  decoded : codec.decode (memory.slots.get index) = .ok record
  unlinked : ∀ key, index ∉ linkage.live key

/-- What a client relies on between two steps. -/
def Phase.Sound (codec : Bincode T) (capacity recordSize : Nat) (memory : TableMemory B)
    (linkage : Linkage K) : Phase K T R → Prop
  | .lock (.update _ index) | .lock (.remove _ index) => index < capacity
  | .locked (.update change index) => index ∈ linkage.live change.key
  | .updateWrite change index record =>
    index ∈ linkage.live change.key ∧ TableRecord.key record = change.key
  | .locked (.remove key index) | .removeInside key index => linkage.Due key index
  | .removeIndex key index => linkage.dead key = some index
  | .insertInside record data => codec.encode record = .ok data
  | .insertIndex record index => Waiting codec memory linkage record index
  | .unlock _ (.reply operation answer) | .reply operation answer =>
    Answered codec recordSize answer operation
  | _ => True

/-- What the guard says of a step, in terms of the linkage. -/
def Event.Fresh (linkage : Linkage K) : Event K T R → Prop
  | .read key index => index ∈ linkage.live key
  | .locked (.update change index) => index ∈ linkage.live change.key
  | .locked (.remove key index) => linkage.Due key index
  | _ => True

/-- What the steps show of the answers. -/
def Event.Sound (codec : Bincode T) (recordSize : Nat) : Event K T R → Prop
  | .applied key record => TableRecord.key record = key
  | .replied operation answer => Answered codec recordSize answer operation
  | _ => True

variable {table : Table K B} {codec : Bincode T} {capacity recordSize : Nat}
  {shared after : Shared B} {memory : TableMemory B} {linkage : Linkage K}
  {config last : Phases ι K T R B}

section Sound

theorem After.sound_phase {after : After K T R} (semNum : Nat)
    (sound : (Phase.unlock semNum after).Sound codec capacity recordSize memory linkage) :
    after.phase.Sound codec capacity recordSize memory linkage := by
  cases after with
  | reply operation answer => exact sound
  | many updater keys rest found => cases rest <;> trivial

theorem Operation.sound_start (operation : Operation K T R) :
    operation.start.Sound codec capacity recordSize memory linkage := by
  cases operation with
  | updateMany keys updater => exact After.sound_phase 0 trivial
  | _ => trivial

theorem Update.sound_skipped (change : Update K T R) (semNum : Nat) :
    (Phase.unlock semNum change.skipped).Sound codec capacity recordSize memory linkage := by
  cases change with
  | withLock key f => exact .inl rfl
  | many key updater keys rest found => trivial

theorem Request.sound_found (request : Request K T R) {position : Option Nat}
    (bound : ∀ index, position = some index → index < capacity) :
    (request.found position).Sound codec capacity recordSize memory linkage := by
  cases request with
  | insert record => cases position <;> trivial
  | find key =>
    cases position with
    | none => exact .inl rfl
    | some index => trivial
  | update change =>
    cases position with
    | none => exact After.sound_phase 0 (change.sound_skipped 0)
    | some index => exact bound index rfl
  | remove key =>
    cases position with
    | none => trivial
    | some index => exact bound index rfl

/-- An update that was refused has applied its closure to a record of its key. -/
theorem Update.sound_failed (change : Update K T R) {record : T} {e : InMemoryTableError}
    (semNum : Nat) (same : TableRecord.key record = change.key)
    (refused : Records.accept codec recordSize (change.apply record) = .error e) :
    (Phase.unlock semNum (change.failed e)).Sound codec capacity recordSize memory linkage := by
  cases change with
  | withLock key f => exact .inr ⟨record, same, .inr ⟨e, refused, rfl⟩⟩
  | many key updater keys rest found => trivial

theorem Update.sound_completed (change : Update K T R) {record : T} (semNum : Nat)
    (same : TableRecord.key record = change.key)
    (accepted : Records.accept codec recordSize (change.apply record) = .ok ()) :
    (Phase.unlock semNum (change.completed record)).Sound codec capacity recordSize memory
      linkage := by
  cases change with
  | withLock key f => exact .inr ⟨record, same, .inl ⟨accepted, rfl⟩⟩
  | many key updater keys rest found => trivial

end Sound

variable [DecidableEq K]

/-- Whenever a search reads its slot, or an update or a removal takes the
semaphore of its record, the index still names the slot for the key; the slot
that a search reads is not between the two halves of a removal. -/
structure Current (table : Table K B) (config : Phases ι K T R B) (label : ι × Event K T R) :
    Prop where
  read : ∀ key index, label.2 = .read key index →
    table.primaryKeys.Links config.shared.memory.index key index ∧
      ∀ c, (config.client c).unlinking ≠ some (key, index)
  update : ∀ change index, label.2 = .locked (.update change index) →
    table.primaryKeys.Links config.shared.memory.index change.key index
  remove : ∀ key index, label.2 = .locked (.remove key index) →
    table.primaryKeys.get config.shared.memory.index key = some (some index)

/-- How a step of a client in `phase` changes the memory, for the other clients. -/
inductive Change (memory : TableMemory B) (linkage : Linkage K) (phase : Phase K T R) :
    TableMemory B → Linkage K → Prop where
  | kept : Change memory linkage phase memory linkage
  | stored {index : Nat} {data : List UInt8} {slots : Slots UInt8} :
      Slots.Inserted memory.slots index data slots →
      Change memory linkage phase { memory with slots } linkage
  | linked {record : T} {index : Nat} {block : IndexBlock B} : phase = .insertIndex record index →
      Change memory linkage phase { memory with index := block }
        (linkage.link (TableRecord.key record) index)
  | replaced {key : K} {index : Nat} {data : List UInt8} {slots : Slots UInt8} :
      index ∈ linkage.live key → Slots.Updated memory.slots index data slots →
      Change memory linkage phase { memory with slots } linkage
  | freed {key : K} {index : Nat} {slots : Slots UInt8} : phase.slot = some index →
      linkage.Due key index →
      Slots.Removed memory.slots index slots →
      Change memory linkage phase { memory with slots } (linkage.free key)
  | unlinked {key : K} {index : Nat} {block : IndexBlock B} : phase = .removeIndex key index →
      linkage.dead key = some index →
      Change memory linkage phase { memory with index := block } (linkage.unlink key)

omit [DecidableEq K] in
theorem Phase.Sound.mono {other : Phase K T R} {memory' : TableMemory B} {linkage' : Linkage K}
    (sound : other.Sound codec capacity recordSize memory linkage)
    (live : ∀ key index, other.slot = some index → index ∈ linkage.live key →
      index ∈ linkage'.live key)
    (due : ∀ key index, other.slot = some index → linkage.Due key index → linkage'.Due key index)
    (dead : ∀ key index, other.slot = some index → linkage.dead key = some index →
      linkage'.dead key = some index)
    (waiting : ∀ record index, other = .insertIndex record index →
      Waiting codec memory linkage record index → Waiting codec memory' linkage' record index) :
    other.Sound codec capacity recordSize memory' linkage' := by
  cases other with
  | lock task => cases task <;> exact sound
  | locked task =>
    cases task with
    | insert record => trivial
    | update change index => exact live _ _ rfl sound
    | remove key index => exact due _ _ rfl sound
  | insertInside record data => exact sound
  | insertIndex record index => exact waiting _ _ rfl sound
  | updateWrite change index record => exact ⟨live _ _ rfl sound.1, sound.2⟩
  | removeInside key index => exact due _ _ rfl sound
  | removeIndex key index => exact dead _ _ rfl sound
  | unlock semNum after => cases after <;> exact sound
  | reply operation answer => exact sound
  | _ => trivial

/-- The other clients can still rely on what they did: they work on other slots
and have no record to link. -/
theorem Phase.Sound.of_change {phase other : Phase K T R} {memory' : TableMemory B}
    {linkage' : Linkage K} (sound : other.Sound codec capacity recordSize memory linkage)
    (keyed : table.Keyed codec capacity recordSize memory linkage)
    (change : Change memory linkage phase memory' linkage')
    (apart : ∀ index, phase.slot = some index → other.slot ≠ some index)
    (linker : ∀ record index, phase = .insertIndex record index →
      ∀ record' index', other ≠ .insertIndex record' index') :
    other.Sound codec capacity recordSize memory' linkage' := by
  cases change with
  | kept => exact sound
  | @stored index data slots inserted =>
    apply sound.mono (fun _ _ _ => id) (fun _ _ _ => id) (fun _ _ _ => id)
    intro record i _ waiting
    have different : i ≠ index := by
      rintro rfl
      exact waiting.used.not_free inserted.wasFree
    refine ⟨inserted.occupied_iff.mpr (.inl waiting.used), ?_, waiting.unlinked⟩
    rw [Slots.get_congr (inserted.others i different), waiting.decoded]
  | @linked record index block mine =>
    refine sound.mono (fun _ _ _ member => Linkage.mem_live_link.mpr (.inl member))
      (fun _ _ _ due => due.link) (fun _ _ _ => id) ?_
    intro record' index' same
    exact absurd same (linker record index mine record' index')
  | @replaced key index data slots member updated =>
    apply sound.mono (fun _ _ _ => id) (fun _ _ _ => id) (fun _ _ _ => id)
    intro record i _ waiting
    have different : i ≠ index := by
      rintro rfl
      exact waiting.unlinked key member
    refine ⟨(updated.occupied_iff (keyed.stored member).1).mpr waiting.used, ?_, waiting.unlinked⟩
    rw [Slots.get_congr (updated.others i different), waiting.decoded]
  | @freed key index slots works due removed =>
    have different : ∀ i, other.slot = some i → i ≠ index := by
      rintro i mine rfl
      exact apart i works mine
    refine sound.mono (fun k i mine member => Linkage.mem_live_free due member (different i mine))
      ?_ ?_ ?_
    · intro k i mine due'
      by_cases same : k = key
      · subst same
        exact absurd (Option.some.inj (due'.2.symm.trans due.2)) (different i mine)
      · rwa [Linkage.Due, Linkage.dead_free_other same, Linkage.live_free_other same]
    · intro k i mine dead
      by_cases same : k = key
      · subst same
        cases due.1.symm.trans dead
      · rwa [Linkage.dead_free_other same]
    · intro record i _ waiting
      have different : i ≠ index := by
        rintro rfl
        exact waiting.unlinked key due.mem
      refine ⟨removed.occupied_iff.mpr ⟨waiting.used, different⟩, ?_, fun k member =>
        waiting.unlinked k (Linkage.mem_of_mem_live_free member)⟩
      rw [Slots.get_congr (removed.others i different), waiting.decoded]
  | @unlinked key index block mine dead =>
    refine sound.mono (fun _ _ _ => id) ?_ ?_
      (fun _ _ _ waiting => ⟨waiting.used, waiting.decoded, waiting.unlinked⟩)
    · intro k i _ due
      by_cases same : k = key
      · subst same
        cases due.1.symm.trans dead
      · exact ⟨(Linkage.dead_unlink_other same).trans due.1, due.2⟩
    · intro k i works dead'
      by_cases same : k = key
      · subst same
        cases dead.symm.trans dead'
        exact absurd works (apart index (by rw [mine]; rfl))
      · rwa [Linkage.dead_unlink_other same]

/-- What a step of a client establishes for itself, given that its guard holds. -/
structure Advance (table : Table K B) (codec : Bincode T) (capacity recordSize : Nat)
    (memory : TableMemory B) (linkage : Linkage K) (phase : Phase K T R)
    (memory' : TableMemory B) (linkage' : Linkage K) (next : Phase K T R) : Prop where
  keyed : table.Keyed codec capacity recordSize memory' linkage'
  sound : next.Sound codec capacity recordSize memory' linkage'
  change : Change memory linkage phase memory' linkage'
  dead : ∀ key index, linkage'.dead key = some index →
    (linkage.dead key = some index ∧ phase.unlinking ≠ some (key, index)) ∨
      next.unlinking = some (key, index)

theorem Advance.kept {phase next : Phase K T R}
    (keyed : table.Keyed codec capacity recordSize memory linkage)
    (sound : next.Sound codec capacity recordSize memory linkage)
    (outside : phase.unlinking = none) :
    Advance table codec capacity recordSize memory linkage phase memory linkage next where
  keyed := keyed
  sound := sound
  change := .kept
  dead key index dead := .inl ⟨dead, by rw [outside]; nofun⟩

theorem Effect.keyed {phase next : Phase K T R} {event : Event K T R}
    (effect : Effect table codec Operation.KeepsKey shared phase event after next)
    (serves : table.Serves capacity) (within : phase.Within Operation.KeepsKey)
    (keyed : table.Keyed codec capacity recordSize shared.memory linkage)
    (sound : phase.Sound codec capacity recordSize shared.memory linkage)
    (fresh : event.Fresh linkage) :
    ∃ linkage', Advance table codec capacity recordSize shared.memory linkage phase after.memory
      linkage' next := by
  cases effect with
  | called => exact ⟨linkage, .kept keyed (Operation.sound_start _) rfl⟩
  | replied => exact ⟨linkage, .kept keyed trivial rfl⟩
  | searched found =>
    refine ⟨linkage, .kept keyed (Request.sound_found _ ?_) rfl⟩
    rintro index rfl
    have first := Option.some.inj ((keyed.get_eq _).symm.trans found)
    exact keyed.lt_of_mem (List.mem_of_mem_head? first)
  | @found key index =>
    obtain ⟨record, got, same⟩ := keyed.record fresh
    refine ⟨linkage, .kept keyed (.inr ⟨record, ?_, same⟩) rfl⟩
    rw [got]
  | @refused task e refused =>
    cases task with
    | insert record => exact ⟨linkage, .kept keyed trivial rfl⟩
    | update change index => exact absurd refused (serves.record_ne_error sound)
    | remove key index => exact ⟨linkage, .kept keyed trivial rfl⟩
  | @locked task =>
    cases task with
    | insert record => exact ⟨linkage, .kept keyed trivial rfl⟩
    | update change index => exact ⟨linkage, .kept keyed fresh rfl⟩
    | remove key index => exact ⟨linkage, .kept keyed fresh rfl⟩
  | rejected => exact ⟨linkage, .kept keyed trivial rfl⟩
  | insertEntered encoded => exact ⟨linkage, .kept keyed encoded rfl⟩
  | @insertRefused record data e slots refused =>
    obtain ⟨_, same⟩ | ⟨_, _, same⟩ | ⟨_, _, _, _, same, _⟩ := keyed.slots.insert_cases data
    · cases same.symm.trans refused
      exact ⟨linkage, .kept keyed trivial rfl⟩
    · cases same.symm.trans refused
      exact ⟨linkage, .kept keyed trivial rfl⟩
    · cases same.symm.trans refused
  | @inserted record data index slots stored =>
    obtain ⟨_, same⟩ | ⟨_, _, same⟩ | ⟨_, _, _, _, same, inserted⟩ := keyed.slots.insert_cases data
    · cases same.symm.trans stored
    · cases same.symm.trans stored
    · cases same.symm.trans stored
      refine ⟨linkage, keyed.store inserted, ⟨inserted.occupied, ?_, fun key member => ?_⟩,
        .stored inserted, fun key index dead => .inl ⟨dead, nofun⟩⟩
      · rw [inserted.stored, codec.decode_encode sound]
      · exact (keyed.stored member).1.not_free inserted.wasFree
  | @linked record index result block linked =>
    rcases keyed.link sound.used sound.decoded sound.unlinked linked with rfl | keyed'
    · exact ⟨linkage, .kept keyed trivial rfl⟩
    · exact ⟨_, keyed', trivial, .linked rfl, fun key index dead => .inl ⟨dead, nofun⟩⟩
  | unlocked => exact ⟨linkage, .kept keyed (After.sound_phase _ sound) rfl⟩
  | unread failed =>
    obtain ⟨record, got, _⟩ := keyed.record sound
    cases got.symm.trans failed
  | @applied change index record got =>
    obtain ⟨record', got', same⟩ := keyed.record sound
    cases got.symm.trans got'
    exact ⟨linkage, .kept keyed ⟨sound, same⟩ rfl⟩
  | @unwritten change index record e memory failed =>
    obtain ⟨member, same⟩ := sound
    obtain ⟨e, refused, failed'⟩ | ⟨_, _, _, wrote, _⟩ :=
      Table.update_cases keyed.slots (keyed.stored member).1 (change.apply record)
    · cases failed'.symm.trans failed
      exact ⟨linkage, .kept keyed (change.sound_failed _ same refused) rfl⟩
    · cases wrote.symm.trans failed
  | @written change index record memory wrote =>
    obtain ⟨member, same⟩ := sound
    obtain ⟨_, _, failed⟩ | ⟨accepted, data, slots, wrote', encoded, updated⟩ :=
      Table.update_cases keyed.slots (keyed.stored member).1 (change.apply record)
    · cases failed.symm.trans wrote
    · cases wrote'.symm.trans wrote
      have key := (Update.key_apply (within _ rfl) record).trans same
      exact ⟨linkage, keyed.replace member encoded key updated,
        change.sound_completed _ same accepted, .replaced member updated,
        fun key index dead => .inl ⟨dead, nofun⟩⟩
  | removeEntered => exact ⟨linkage, .kept keyed sound rfl⟩
  | @removed key index =>
    have due : linkage.Due key index := sound
    obtain ⟨removed, keyed'⟩ := keyed.free due
    refine ⟨_, keyed', Linkage.dead_free_self.trans due.2, .freed rfl due removed, ?_⟩
    intro k i dead
    by_cases same : k = key
    · subst same
      rw [Linkage.dead_free_self, due.2] at dead
      cases dead
      exact .inr rfl
    · rw [Linkage.dead_free_other same] at dead
      exact .inl ⟨dead, nofun⟩
  | @unlinked key index result block removed =>
    have dead : linkage.dead key = some index := sound
    refine ⟨_, keyed.unlink dead removed, trivial, .unlinked rfl dead, ?_⟩
    intro k i dead'
    by_cases same : k = key
    · subst same
      cases (Function.update_self ..).symm.trans dead'
    · rw [Linkage.dead_unlink_other same] at dead'
      refine .inl ⟨dead', fun mine => ?_⟩
      cases mine
      exact same rfl

theorem Effect.event_sound {phase next : Phase K T R} {event : Event K T R}
    {calls : Operation K T R → Prop}
    (effect : Effect table codec calls shared phase event after next)
    (keyed : table.Keyed codec capacity recordSize shared.memory linkage)
    (sound : phase.Sound codec capacity recordSize shared.memory linkage) :
    event.Sound codec recordSize := by
  cases effect with
  | replied => exact sound
  | applied got =>
    obtain ⟨record, got', same⟩ := keyed.record sound
    cases got.symm.trans got'
    exact same
  | _ => trivial

/-- All clients can rely on what they have looked up. -/
structure Looking (table : Table K B) (codec : Bincode T) (capacity recordSize : Nat)
    (linkage : Linkage K) (config : Phases ι K T R B) : Prop where
  exclusive : Exclusive table config
  within : ∀ c, (config.client c).Within Operation.KeepsKey
  keyed : table.Keyed codec capacity recordSize config.shared.memory linkage
  sound : ∀ c, (config.client c).Sound codec capacity recordSize config.shared.memory linkage
  dead : ∀ {key index}, linkage.dead key = some index →
    ∃ c, (config.client c).unlinking = some (key, index)

variable [DecidableEq ι] {label : ι × Event K T R}

/-- The client that takes the semaphore of a record is the only one at work on
its slot. -/
theorem Looking.not_dead (looking : Looking table codec capacity recordSize linkage config)
    {c : ι} {task : Task K T R} {index : Nat}
    (moves : Step (Effect table codec Operation.KeepsKey) config (c, .locked task) last)
    (same : task.semaphore table = table.semaphores.recordNumber index) (key : K) :
    linkage.dead key ≠ some index := by
  intro dead
  obtain ⟨d, unlinking⟩ := looking.dead dead
  have exclusive := looking.exclusive.step moves
  cases moves with
  | @move _ _ shared phase effect =>
    have unlinking := Phase.unlinking_iff.mp unlinking
    have different : d ≠ c := by
      rintro rfl
      rw [unlinking] at effect
      cases effect
    refine different (exclusive.same_client (x := table.semaphores.recordNumber index) ?_ ?_)
    · rw [Config.moved_other _ _ _ _ different, unlinking]
      rfl
    · rw [Config.moved_self, effect.locked_task, ← same]
      rfl

theorem Looking.fresh (looking : Looking table codec capacity recordSize linkage config)
    (moves : Step (Effect table codec Operation.KeepsKey) config label last)
    (current : Current table config label) : label.2.Fresh linkage := by
  obtain ⟨c, event⟩ := label
  cases event with
  | read key index =>
    obtain ⟨links, nobody⟩ := current.read key index rfl
    rcases Linkage.mem_all.mp (looking.keyed.links_iff.mp links) with dead | live
    · obtain ⟨d, unlinking⟩ := looking.dead dead
      exact absurd unlinking (nobody d)
    · exact live
  | locked task =>
    cases task with
    | insert record => trivial
    | update change index =>
      have links := current.update change index rfl
      rcases Linkage.mem_all.mp (looking.keyed.links_iff.mp links) with dead | live
      · exact absurd dead (looking.not_dead moves rfl change.key)
      · exact live
    | remove key index =>
      have first : (linkage.all key).head? = some index :=
        Option.some.inj ((looking.keyed.get_eq key).symm.trans (current.remove key index rfl))
      cases dead : linkage.dead key with
      | none => exact ⟨dead, by simpa [Linkage.all, dead] using first⟩
      | some i =>
        have same : i = index := by simpa [Linkage.all, dead] using first
        exact absurd (same ▸ dead) (looking.not_dead moves rfl key)
  | _ => trivial

theorem Looking.step (serves : table.Serves capacity)
    (looking : Looking table codec capacity recordSize linkage config)
    (stepped : Guarded (Step (Effect table codec Operation.KeepsKey)) (Current table) config label
      last) :
    ∃ linkage', Looking table codec capacity recordSize linkage' last := by
  obtain ⟨moves, current⟩ := stepped
  have fresh := looking.fresh moves current
  have exclusive := looking.exclusive.step moves
  cases moves with
  | @move c event shared phase effect =>
    obtain ⟨linkage', advance⟩ :=
      effect.keyed serves (looking.within c) looking.keyed (looking.sound c) fresh
    refine ⟨linkage', exclusive, ?_, advance.keyed, ?_, ?_⟩
    · exact config.moved_forall c shared phase (effect.within (looking.within c))
        (fun d _ => looking.within d)
    · refine config.moved_forall c shared phase
        (P := fun _ phase => phase.Sound codec capacity recordSize shared.memory linkage')
        advance.sound (fun d different => ?_)
      refine (looking.sound d).of_change looking.keyed advance.change ?_ ?_
      · intro index mine other
        exact different (looking.exclusive.same_client (Phase.slot_holding other)
          (Phase.slot_holding mine))
      · intro record index mine record' index' other
        refine different (looking.exclusive.same_client (x := table.semaphores.tableNumber) ?_ ?_)
        · rw [other]
          rfl
        · rw [mine]
          rfl
    · intro key index dead
      rcases advance.dead key index dead with ⟨before, other⟩ | now
      · obtain ⟨d, unlinking⟩ := looking.dead before
        refine ⟨d, ?_⟩
        rw [Config.moved_other]
        · exact unlinking
        · rintro rfl
          exact other unlinking
      · exact ⟨c, by rwa [Config.moved_self]⟩

omit [DecidableEq ι] in
theorem Started.looking {records : Records K T} (serves : table.Serves capacity)
    (started : Started table codec capacity recordSize config records)
    (keyed : records.Keyed) :
    Looking table codec capacity recordSize (.ofRecords records) config where
  exclusive := started.exclusive
  within c operation current := by
    rw [started.idle c] at current
    cases current
  keyed := started.holds.to_keyed serves keyed
  sound c := by
    rw [started.idle c]
    trivial
  dead := nofun

/-- In every interleaving in which the index still names the slot that was looked
up when a search reads it and when an update or a removal takes its semaphore, a
search never answers with another key's record or an error, and closures are
applied only to records of their key. -/
theorem lookups_answer_own_key (serves : table.Serves capacity) (records : Records K T)
    (keyed : records.Keyed) (config last : Config ι (Shared B) (Client K T R))
    (trace : List (ι × Event K T R)) (started : Started table codec capacity recordSize (phases config) records)
    (programs : ∀ c, (config.client c).Calls Operation.KeepsKey)
    (run : Run (Guarded (Client.Steps table codec)
      (fun config label => Current table (phases config) label)) config trace last) :
    ∀ label ∈ trace,
      (∀ key record, label.2 = .applied key record → TableRecord.key record = key) ∧
      ∀ operation answer, label.2 = .replied operation answer →
        Answered codec recordSize answer operation := by
  have run := Client.run_effect Operation.KeepsKey (Current table) programs run
  have sound : ∀ label ∈ trace, label.2.Sound codec recordSize := by
    refine run.labels (P := fun config => ∃ linkage,
        Looking table codec capacity recordSize linkage config)
      (fun ⟨linkage, looking⟩ stepped => looking.step serves stepped) ?_
      ⟨_, started.looking serves keyed⟩
    rintro config label last ⟨linkage, looking⟩ ⟨moves, _⟩
    cases moves with
    | @move c event shared phase effect => exact effect.event_sound looking.keyed (looking.sound c)
  rintro ⟨c, event⟩ member
  have shown := sound _ member
  constructor
  · rintro key record rfl
    exact shown
  · rintro operation answer rfl
    exact shown

/-! ### A call on a record that another client replaces -/

/-- Client `false` makes calls on record 1, client `true` removes it and inserts
record 2. -/
def replacedStart (operations : List (Operation UInt8 (UInt8 × UInt8) Unit)) :
    Config Bool (Shared (Node UInt8)) (Client UInt8 (UInt8 × UInt8) Unit) :=
  starting (twoRecordsAfter [(1, 1)])
    (fun c => if c then [.remove 1, .insert (2, 5)] else operations)

def increment : Operation UInt8 (UInt8 × UInt8) Unit :=
  .updateWithLock 1 (fun record => ((), (record.1, record.2 + 1)))

theorem replacedStart_calls (c : Bool) :
    ((replacedStart [.find 1, increment]).client c).Calls Operation.KeepsKey := by
  cases c with
  | false =>
    refine Client.ofCalls_calls (List.forall_mem_cons.mpr ⟨trivial, fun operation member => ?_⟩)
    rw [List.mem_singleton.mp member]
    exact fun _ => rfl
  | true =>
    refine Client.ofCalls_calls (List.forall_mem_cons.mpr ⟨trivial, fun operation member => ?_⟩)
    rw [List.mem_singleton.mp member]
    trivial

/-- `Current`, computed for two clients. -/
def currentNow (table : Table K B) (config : Phases Bool K T R B) : Event K T R → Bool
  | .read key index => decide (table.primaryKeys.Links config.shared.memory.index key index ∧
      ∀ c, (config.client c).unlinking ≠ some (key, index))
  | .locked (.update change index) =>
    decide (table.primaryKeys.Links config.shared.memory.index change.key index)
  | .locked (.remove key index) =>
    decide (table.primaryKeys.get config.shared.memory.index key = some (some index))
  | _ => true

omit [TableRecord T K] in
theorem currentNow_sound {config : Phases Bool K T R B} {label : Bool × Event K T R}
    (fine : currentNow table config label.2 = true) : Current table config label := by
  constructor
  · intro key index same
    rw [same] at fine
    exact of_decide_eq_true fine
  · intro change index same
    rw [same] at fine
    exact of_decide_eq_true fine
  · intro key index same
    rw [same] at fine
    exact of_decide_eq_true fine

/-- Client `false` has returned before client `true` starts. -/
theorem lookups_answer_own_key_sample :
    ∃ trace last, Run (Guarded (Client.Steps twoRecords .twoBytes)
        (fun config label => Current twoRecords (phases config) label))
        (replacedStart [.find 1, increment]) trace last ∧
      (last.client false).replies.length = 2 ∧ (last.client true).replies.length = 2 ∧
      ∀ label ∈ trace,
        (∀ key record, label.2 = .applied key record → TableRecord.key record = key) ∧
        ∀ operation answer, label.2 = .replied operation answer →
          Answered .twoBytes 2 answer operation := by
  obtain ⟨records, holds, keyed⟩ := twoRecordsAfter_holds [(1, 1)]
  obtain ⟨trace, last, returned, run⟩ := exists_run (Client.next twoRecords .twoBytes)
    (fun config label => currentNow twoRecords (phases config) label.2)
    (replacedStart [.find 1, increment]) (List.replicate 11 false ++ List.replicate 16 true)
    (fun _ last => decide ((last.client false).replies.length = 2 ∧
      (last.client true).replies.length = 2)) (by decide +kernel)
  have run : Run (Guarded (Client.Steps twoRecords .twoBytes)
      (fun config label => Current twoRecords (phases config) label))
      (replacedStart [.find 1, increment]) trace last := by
    exact run.mono (fun stepped => ⟨stepped.1, currentNow_sound stepped.2⟩)
  obtain ⟨first, second⟩ := of_decide_eq_true returned
  exact ⟨trace, last, run, first, second, lookups_answer_own_key twoRecords_serves records keyed
    (replacedStart [.find 1, increment]) last trace (holds.started _) replacedStart_calls run⟩

/-- A search has failed. -/
def Event.failedFind : Event K T R → Bool
  | .replied (.find _) (.found (.error _)) => true
  | _ => false

/-- A closure has been applied to the record of another key. -/
def Event.strayed : Event K T R → Bool
  | .applied key record => decide (TableRecord.key record ≠ key)
  | _ => false

omit [TableRecord T K] [DecidableEq K] in
theorem Event.replied_of_failedFind {event : Event K T R} (failed : event.failedFind = true) :
    ∃ key e, event = .replied (.find key) (.found (.error e)) := by
  unfold failedFind at failed
  split at failed
  · exact ⟨_, _, rfl⟩
  · cases failed

theorem Event.applied_of_strayed {event : Event K T R} (strayed : event.strayed = true) :
    ∃ key record, event = .applied key record ∧ TableRecord.key record ≠ key := by
  cases event with
  | applied key record => exact ⟨key, record, rfl, of_decide_eq_true strayed⟩
  | _ => cases strayed

/-- Client `false` looks the record up before client `true` frees its slot, and
reads it before the slot is unlinked, or updates it when it is in use again. -/
theorem lookups_read_other_records :
    (¬ ∀ trace last, Run (Client.Steps twoRecords .twoBytes) (replacedStart [.find 1]) trace last →
      ∀ label ∈ trace, ∀ operation answer, label.2 = .replied operation answer →
        Answered .twoBytes 2 answer operation) ∧
    ¬ ∀ trace last, Run (Client.Steps twoRecords .twoBytes) (replacedStart [increment]) trace last →
      ∀ label ∈ trace, ∀ key record, label.2 = .applied key record →
        TableRecord.key record = key := by
  constructor
  · intro answered
    obtain ⟨trace, last, failed, run⟩ := exists_run (Client.next twoRecords .twoBytes)
      (fun _ _ => true) (replacedStart [.find 1])
      [false, false, true, true, true, true, true, false, false]
      (fun trace _ => trace.any (fun label => label.2.failedFind)) (by decide +kernel)
    obtain ⟨label, member, failed⟩ := List.any_eq_true.mp failed
    obtain ⟨key, e, replied⟩ := Event.replied_of_failedFind failed
    have sound := answered trace last run.unguarded label member _ _ replied
    simp [Answered] at sound
  · intro own
    obtain ⟨trace, last, strayed, run⟩ := exists_run (Client.next twoRecords .twoBytes)
      (fun _ _ => true) (replacedStart [increment])
      ([false, false] ++ List.replicate 16 true ++ [false, false])
      (fun trace _ => trace.any (fun label => label.2.strayed)) (by decide +kernel)
    obtain ⟨label, member, strayed⟩ := List.any_eq_true.mp strayed
    obtain ⟨key, record, applied, foreign⟩ := Event.applied_of_strayed strayed
    exact foreign (own trace last run.unguarded label member key record applied)

end InMemoryTable
