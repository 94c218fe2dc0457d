import InMemoryTable.Client
import InMemoryTable.Library.Ownership

/-! The effects of a client's steps, read off once, and the ownership of the
semaphores along every interleaving. Programs are abstracted to the set of the
calls that they make. -/
namespace InMemoryTable
open Interleaving Transition

variable {K T R B ι : Type} [DecidableEq K] [TableRecord T K]

/-- What a step of a client does to the shared state and to its own phase. -/
inductive Effect (table : Table K B) (codec : Bincode T) (calls : Operation K T R → Prop)
    (shared : Shared B) : Phase K T R → Event K T R → Shared B → Phase K T R → Prop where
  | called {operation : Operation K T R} : calls operation →
      Effect table codec calls shared .idle (.called operation) shared operation.start
  | replied {operation : Operation K T R} {answer : Reply T R} :
      Effect table codec calls shared (.reply operation answer) (.replied operation answer) shared
        .idle
  | searched {request : Request K T R} {position : Option Nat} :
      table.primaryKeys.get shared.memory.index request.key = some position →
      Effect table codec calls shared (.lookup request) (.searched request.key position) shared
        (request.found position)
  | found {key : K} {index : Nat} :
      Effect table codec calls shared (.findRead key index) (.read key index) shared
        (.reply (.find key) (.found (Table.get codec shared.memory index)))
  | refused {task : Task K T R} {e : InMemoryTableError} :
      task.tryLock table (Semaphores.lock table.semaphores.stripes shared.semaphores) = .error e →
      Effect table codec calls shared (.lock task) (.failed e) shared (task.failed e).phase
  | locked {task : Task K T R} :
      task.semaphore table < table.semaphores.stripes →
      0 < shared.semaphores (task.semaphore table) →
      Effect table codec calls shared (.lock task) (.locked task)
        { shared with semaphores := shared.semaphores.take (task.semaphore table) } (.locked task)
  | rejected {record : T} {e : InMemoryTableError} : codec.encode record = .error e →
      Effect table codec calls shared (.locked (.insert record)) (.failed e) shared
        (.unlock table.semaphores.tableNumber ((Task.insert record).failed e))
  | insertEntered {record : T} {data : List UInt8} : codec.encode record = .ok data →
      Effect table codec calls shared (.locked (.insert record)) .entered shared
        (.insertInside record data)
  | insertRefused {record : T} {data : List UInt8} {e : InMemoryTableError} {slots : Slots UInt8} :
      shared.memory.slots.insert data = (.error e, slots) →
      Effect table codec calls shared (.insertInside record data) .left
        { shared with memory := { shared.memory with slots } }
        (.unlock table.semaphores.tableNumber ((Task.insert record).failed e))
  | inserted {record : T} {data : List UInt8} {index : Nat} {slots : Slots UInt8} :
      shared.memory.slots.insert data = (.ok index, slots) →
      Effect table codec calls shared (.insertInside record data) .left
        { shared with memory := { shared.memory with slots } } (.insertIndex record index)
  | linked {record : T} {index : Nat} {result : Except InMemoryTableError Unit}
      {block : IndexBlock B} :
      table.primaryKeys.insert shared.memory.index (TableRecord.key record) index =
        some (result, block) →
      Effect table codec calls shared (.insertIndex record index) (.linked result)
        { shared with memory := { shared.memory with index := block } }
        (.unlock table.semaphores.tableNumber
          (.reply (.insert record) (.inserted (result.map (fun _ => index)))))
  | unread {change : Update K T R} {index : Nat} {e : InMemoryTableError} :
      Table.get codec shared.memory index = .error e →
      Effect table codec calls shared (.locked (.update change index)) (.failed e) shared
        (.unlock (table.semaphores.recordNumber index) (change.failed e))
  | applied {change : Update K T R} {index : Nat} {record : T} :
      Table.get codec shared.memory index = .ok (some record) →
      Effect table codec calls shared (.locked (.update change index))
        (.applied change.key record) shared (.updateWrite change index record)
  | unwritten {change : Update K T R} {index : Nat} {record : T} {e : InMemoryTableError}
      {memory : TableMemory B} :
      Table.update codec shared.memory index (change.apply record) = (.error e, memory) →
      Effect table codec calls shared (.updateWrite change index record) (.wrote (.error e))
        { shared with memory }
        (.unlock (table.semaphores.recordNumber index) (change.failed e))
  | written {change : Update K T R} {index : Nat} {record : T} {memory : TableMemory B} :
      Table.update codec shared.memory index (change.apply record) = (.ok (), memory) →
      Effect table codec calls shared (.updateWrite change index record) (.wrote (.ok ()))
        { shared with memory }
        (.unlock (table.semaphores.recordNumber index) (change.completed record))
  | removeEntered {key : K} {index : Nat} :
      Effect table codec calls shared (.locked (.remove key index)) .entered shared
        (.removeInside key index)
  | removed {key : K} {index : Nat} :
      Effect table codec calls shared (.removeInside key index) .left
        { shared with memory := { shared.memory with slots := shared.memory.slots.remove index } }
        (.removeIndex key index)
  | unlinked {key : K} {index : Nat} {result : Except InMemoryTableError Unit}
      {block : IndexBlock B} :
      table.primaryKeys.remove shared.memory.index key = some (result, block) →
      Effect table codec calls shared (.removeIndex key index) (.unlinked result)
        { shared with memory := { shared.memory with index := block } }
        (.unlock (table.semaphores.recordNumber index) (.reply (.remove key) (.removed result)))
  | unlocked {semNum : Nat} {after : After K T R} :
      Effect table codec calls shared (.unlock semNum after) (.unlocked semNum)
        { shared with semaphores := shared.semaphores.unlock semNum } after.phase

variable {table : Table K B} {codec : Bincode T} {calls : Operation K T R → Prop}
  {shared after : Shared B}

/-! ### Every step has such an effect -/

omit [DecidableEq K] [TableRecord T K] in
theorem Table.get_ne_none {memory : TableMemory B} {index : Nat} :
    Table.get codec memory index ≠ .ok none := by
  intro absent
  simp only [Table.get] at absent
  split at absent
  · contradiction
  · cases decoded : codec.decode (memory.slots.get index) <;>
      simp [decoded, Except.map] at absent

theorem Semaphores.lock_ok {size semNum : Nat} {values taken : Semaphores}
    (locked : Semaphores.lock size values semNum = .ok (some taken)) :
    semNum < size ∧ 0 < values semNum ∧ taken = values.take semNum := by
  unfold Semaphores.lock at locked
  split at locked
  · rename_i valid
    split at locked
    · rename_i positive
      cases locked
      exact ⟨valid, positive, rfl⟩
    · cases locked
  · cases locked

theorem Locker.tryLock_ok {X : Type} {semop : Nat → Except Errno X} {position size : Nat} {x : X}
    (locked : Locker.tryLock semop position size = .ok x) : semop (asU16 position) = .ok x := by
  unfold Locker.tryLock at locked
  split at locked
  · cases locked
  · rename_i done
    cases locked
    exact done

omit [DecidableEq K] [TableRecord T K] in
theorem Task.tryLock_semop {task : Task K T R} {values : Semaphores} {outcome : Option Semaphores}
    (tried : task.tryLock table (Semaphores.lock table.semaphores.stripes values) = .ok outcome) :
    Semaphores.lock table.semaphores.stripes values (task.semaphore table) = .ok outcome := by
  cases task with
  | insert record => exact Locker.tryLock_ok tried
  | update change index =>
    simp only [tryLock, SemaphoreSet.lockRecord, SemaphoreSet.lock] at tried
    split at tried
    · cases tried
    · exact Locker.tryLock_ok tried
  | remove key index =>
    simp only [tryLock, SemaphoreSet.lockRecord, SemaphoreSet.lock] at tried
    split at tried
    · cases tried
    · exact Locker.tryLock_ok tried

theorem Phase.advance_effect {phase next : Phase K T R} {event : Event K T R}
    (advanced : phase.advance table codec shared = some (event, after, next)) :
    Effect table codec calls shared phase event after next := by
  cases phase with
  | idle => cases advanced
  | reply operation answer => cases advanced
  | lookup request =>
    simp only [advance, Option.bind_eq_bind, Option.bind_eq_some_iff] at advanced
    obtain ⟨position, searched, advanced⟩ := advanced
    cases advanced
    exact .searched searched
  | findRead key index =>
    cases advanced
    exact .found
  | lock task =>
    simp only [advance] at advanced
    split at advanced
    · rename_i e refused
      cases advanced
      exact .refused refused
    · cases advanced
    · rename_i taken locked
      cases advanced
      obtain ⟨valid, positive, rfl⟩ := Semaphores.lock_ok (Task.tryLock_semop locked)
      exact .locked valid positive
  | locked task =>
    cases task with
    | insert record =>
      simp only [advance, work] at advanced
      split at advanced <;> rename_i encoded <;> cases advanced
      · exact .rejected encoded
      · exact .insertEntered encoded
    | update change index =>
      simp only [advance, work] at advanced
      split at advanced <;> rename_i got <;> cases advanced
      · exact .unread got
      · exact absurd got Table.get_ne_none
      · exact .applied got
    | remove key index =>
      cases advanced
      exact .removeEntered
  | insertInside record data =>
    simp only [advance] at advanced
    split at advanced <;> rename_i inserted <;> cases advanced
    · exact .insertRefused inserted
    · exact .inserted inserted
  | insertIndex record index =>
    simp only [advance, Option.bind_eq_bind, Option.bind_eq_some_iff] at advanced
    obtain ⟨⟨result, block⟩, linked, advanced⟩ := advanced
    cases advanced
    exact .linked linked
  | updateWrite change index record =>
    simp only [advance] at advanced
    split at advanced <;> rename_i wrote <;> cases advanced
    · exact .unwritten wrote
    · exact .written wrote
  | removeInside key index =>
    cases advanced
    exact .removed
  | removeIndex key index =>
    simp only [advance, Option.bind_eq_bind, Option.bind_eq_some_iff] at advanced
    obtain ⟨⟨result, block⟩, unlinked, advanced⟩ := advanced
    cases advanced
    exact .unlinked unlinked
  | unlock semNum after =>
    cases advanced
    exact .unlocked

/-- A client all of whose calls satisfy `calls`, whatever the replies are. -/
def Client.Calls (calls : Operation K T R → Prop) (client : Client K T R) : Prop :=
  ∀ replies operation, client.program replies = some operation → calls operation

theorem Client.next_effect (calls : Operation K T R → Prop) {client moved : Client K T R}
    {event : Event K T R} (program : client.Calls calls)
    (stepped : Computes (next table codec) shared client event after moved) :
    Effect table codec calls shared client.phase event after moved.phase ∧ moved.Calls calls := by
  unfold Computes next at stepped
  split at stepped
  · rename_i idle
    rw [idle]
    obtain ⟨operation, chosen, same⟩ := Option.map_eq_some_iff.mp stepped
    cases same
    exact ⟨.called (program _ _ chosen), program⟩
  · rename_i operation answer replying
    rw [replying]
    cases stepped
    exact ⟨.replied, program⟩
  · obtain ⟨⟨event, shared, phase⟩, advanced, same⟩ := Option.map_eq_some_iff.mp stepped
    cases same
    exact ⟨Phase.advance_effect advanced, program⟩

theorem Effect.locked_task {phase next : Phase K T R} {task : Task K T R}
    (effect : Effect table codec calls shared phase (.locked task) after next) :
    next = .locked task := by
  cases effect
  rfl

theorem Effect.locked_memory {phase next : Phase K T R} {task : Task K T R}
    (effect : Effect table codec calls shared phase (.locked task) after next) :
    after.memory = shared.memory := by
  cases effect
  rfl

/-- A run of clients is a run of effects on their phases. -/
theorem Client.run_effect [DecidableEq ι] (calls : Operation K T R → Prop)
    (allowed : Phases ι K T R B → ι × Event K T R → Prop)
    {config last : Config ι (Shared B) (Client K T R)} {trace : List (ι × Event K T R)}
    (programs : ∀ c, (config.client c).Calls calls)
    (run : Run (Guarded (Client.Steps table codec) (fun config label => allowed (phases config) label))
      config trace last) :
    Run (Guarded (Step (Effect table codec calls)) allowed) (phases config) trace (phases last) :=
  run_map Client.phase (Client.Calls calls) (Client.next_effect calls) run programs

theorem Client.run_effects [DecidableEq ι] (calls : Operation K T R → Prop)
    {config last : Config ι (Shared B) (Client K T R)} {trace : List (ι × Event K T R)}
    (programs : ∀ c, (config.client c).Calls calls)
    (run : Run (Client.Steps table codec) config trace last) :
    Run (Step (Effect table codec calls)) (phases config) trace (phases last) :=
  (Client.run_effect calls (fun _ _ => True) programs
    (run.mono (fun stepped => ⟨stepped, trivial⟩))).unguarded

/-! ### The call that a client is in -/

section Call
omit [DecidableEq K] [TableRecord T K]

@[simp] theorem After.operation_phase (after : After K T R) :
    after.phase.operation = some after.operation := by
  cases after with
  | reply operation answer => rfl
  | many updater keys rest found => cases rest <;> rfl

@[simp] theorem Operation.operation_start (operation : Operation K T R) :
    operation.start.operation = some operation := by
  cases operation with
  | updateMany keys updater => exact After.operation_phase _
  | _ => rfl

@[simp] theorem Update.operation_skipped (change : Update K T R) :
    change.skipped.operation = change.operation := by
  cases change <;> rfl

@[simp] theorem Update.operation_completed (change : Update K T R) (record : T) :
    (change.completed record).operation = change.operation := by
  cases change <;> rfl

@[simp] theorem Update.operation_failed (change : Update K T R) (e : InMemoryTableError) :
    (change.failed e).operation = change.operation := by
  cases change <;> rfl

@[simp] theorem Request.operation_found (request : Request K T R) (position : Option Nat) :
    (request.found position).operation = some request.operation := by
  cases request with
  | update change =>
    cases position with
    | none => simp [found, operation]
    | some index => rfl
  | _ => cases position <;> rfl

@[simp] theorem Task.operation_failed (task : Task K T R) (e : InMemoryTableError) :
    (task.failed e).operation = task.operation := by
  cases task with
  | update change index => exact Update.operation_failed _ _
  | _ => rfl

end Call

/-- The client is between two calls or in one of `calls`. -/
def Phase.Within (calls : Operation K T R → Prop) (phase : Phase K T R) : Prop :=
  ∀ operation, phase.operation = some operation → calls operation

theorem Effect.operation {phase next : Phase K T R} {event : Event K T R}
    (effect : Effect table codec calls shared phase event after next) :
    next.operation = phase.operation ∨ next.operation = none ∨
      ∃ operation, calls operation ∧ next.operation = some operation := by
  cases effect with
  | called permitted => exact .inr (.inr ⟨_, permitted, Operation.operation_start _⟩)
  | replied => exact .inr (.inl rfl)
  | searched => exact .inl (Request.operation_found _ _)
  | refused => exact .inl (by rw [After.operation_phase, Task.operation_failed]; rfl)
  | unread => exact .inl (by simp [Phase.operation, Task.operation])
  | unwritten => exact .inl (by simp [Phase.operation])
  | written => exact .inl (by simp [Phase.operation])
  | unlocked => exact .inl (After.operation_phase _)
  | _ => exact .inl rfl

theorem Effect.within {phase next : Phase K T R} {event : Event K T R}
    (effect : Effect table codec calls shared phase event after next) (within : phase.Within calls) :
    next.Within calls := by
  intro operation current
  rcases effect.operation with same | none | ⟨_, permitted, same⟩
  · exact within operation (same.symm.trans current)
  · simp [none] at current
  · rw [same] at current
    cases current
    exact permitted

/-! ### Ownership of the semaphores -/

/-- The semaphore that a client holds. -/
def Phase.holding (table : Table K B) : Phase K T R → Option Nat
  | .idle | .lookup _ | .findRead _ _ | .lock _ | .reply _ _ => none
  | .locked task => some (task.semaphore table)
  | .insertInside _ _ | .insertIndex _ _ => some table.semaphores.tableNumber
  | .updateWrite _ index _ | .removeInside _ index | .removeIndex _ index =>
    some (table.semaphores.recordNumber index)
  | .unlock semNum _ => some semNum

section Holding
omit [DecidableEq K]

omit [TableRecord T K] in
@[simp] theorem After.holding_phase (table : Table K B) (after : After K T R) :
    after.phase.holding table = none := by
  cases after with
  | reply operation answer => rfl
  | many updater keys rest found => cases rest <;> rfl

omit [TableRecord T K] in
@[simp] theorem Operation.holding_start (table : Table K B) (operation : Operation K T R) :
    operation.start.holding table = none := by
  cases operation with
  | updateMany keys updater => exact After.holding_phase _ _
  | insert record => rfl
  | find key => rfl
  | updateWithLock key f => rfl
  | remove key => rfl

omit [TableRecord T K] in
@[simp] theorem Request.holding_found (table : Table K B) (request : Request K T R)
    (position : Option Nat) : (request.found position).holding table = none := by
  cases request with
  | update change =>
    cases position with
    | none => exact After.holding_phase _ _
    | some index => rfl
  | insert record => cases position <;> rfl
  | find key => cases position <;> rfl
  | remove key => cases position <;> rfl

end Holding

/-- A step takes a free semaphore, gives back the one held, or leaves both the
semaphores and the possession alone. -/
theorem Effect.holding {phase next : Phase K T R} {event : Event K T R}
    (effect : Effect table codec calls shared phase event after next) :
    (after.semaphores = shared.semaphores ∧ next.holding table = phase.holding table) ∨
    (∃ x < table.semaphores.stripes, 0 < shared.semaphores x ∧ phase.holding table = none ∧
      next.holding table = some x ∧ after.semaphores = shared.semaphores.take x) ∨
    (∃ x, phase.holding table = some x ∧ next.holding table = none ∧
      after.semaphores = shared.semaphores.unlock x) := by
  cases effect with
  | locked valid positive => exact .inr (.inl ⟨_, valid, positive, rfl, rfl, rfl⟩)
  | unlocked => exact .inr (.inr ⟨_, rfl, After.holding_phase _ _, rfl⟩)
  | called => exact .inl ⟨rfl, Operation.holding_start _ _⟩
  | searched => exact .inl ⟨rfl, Request.holding_found _ _ _⟩
  | refused => exact .inl ⟨rfl, After.holding_phase _ _⟩
  | _ => exact .inl ⟨rfl, rfl⟩

/-- Each client holds at most one semaphore, and no two hold the same. -/
def Exclusive (table : Table K B) (config : Phases ι K T R B) : Prop :=
  Ownership.Exclusive table.semaphores.stripes config.shared.semaphores
    (fun c => (config.client c).holding table)

/-- All clients are between two calls, and all semaphores are free. -/
structure Quiet (table : Table K B) (config : Phases ι K T R B) : Prop where
  free : ∀ x < table.semaphores.stripes, config.shared.semaphores x = 1
  idle : ∀ c, config.client c = .idle

variable {config last : Phases ι K T R B}

omit [DecidableEq K] [TableRecord T K] in
theorem Quiet.exclusive (quiet : Quiet table config) : Exclusive table config :=
  .initial quiet.free (fun c => by rw [quiet.idle c]; rfl)

omit [DecidableEq K] [TableRecord T K] in
theorem Exclusive.same_client (exclusive : Exclusive table config) {c d : ι} {x : Nat}
    (first : (config.client c).holding table = some x)
    (second : (config.client d).holding table = some x) : c = d :=
  exclusive.unique first second

variable [DecidableEq ι] {label : ι × Event K T R} {trace : List (ι × Event K T R)}

theorem Exclusive.step (exclusive : Exclusive table config)
    (stepped : Step (Effect table codec calls) config label last) : Exclusive table last := by
  cases stepped with
  | @move c event shared phase effect =>
    unfold Exclusive
    rw [Config.moved_comp, Config.moved_shared]
    rcases effect.holding with ⟨kept, same⟩ | ⟨x, valid, positive, idle, taken, semaphores⟩ |
      ⟨x, held, released, semaphores⟩
    · rw [kept, same, Function.update_eq_self_iff.mpr rfl]
      exact exclusive
    · rw [taken, semaphores]
      exact exclusive.acquire idle valid positive
    · rw [released, semaphores]
      exact exclusive.release held

end InMemoryTable
