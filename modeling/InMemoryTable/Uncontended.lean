import InMemoryTable.Effect

/-! A client whose call is not interrupted computes what the table computes in one
piece: the atomic steps of a call add up to the call. -/
namespace InMemoryTable
open Interleaving Transition

variable {K T R B ι : Type}

/-- `semop` for a client that nobody keeps waiting. -/
def Semaphores.semop (size : Nat) (values : Semaphores) (semNum : Nat) : Except Errno Unit :=
  (Semaphores.lock size values semNum).map (fun _ => ())

theorem Semaphores.unlock_take {values : Semaphores} {semNum : Nat} (positive : 0 < values semNum) :
    (values.take semNum).unlock semNum = values := by
  funext other
  by_cases same : other = semNum
  · subst same
    simp only [unlock, take, Function.update_self]
    omega
  · simp only [unlock, take, Function.update_of_ne same]

theorem Locker.tryLock_map {X Y : Type} (semop : Nat → Except Errno X) (f : X → Y)
    (position size : Nat) :
    Locker.tryLock (fun semNum => (semop semNum).map f) position size =
      (Locker.tryLock semop position size).map f := by
  unfold Locker.tryLock
  cases outcome : semop (asU16 position) <;> simp [outcome, Except.map]

theorem SemaphoreSet.lockRecord_map {X Y : Type} (set : SemaphoreSet)
    (semop : Nat → Except Errno X) (f : X → Y) (index : Nat) :
    set.lockRecord (fun semNum => (semop semNum).map f) index = (set.lockRecord semop index).map f := by
  simp only [lockRecord, lock]
  split
  · rfl
  · exact Locker.tryLock_map ..

/-! ### Updates in terms of one update -/

section Once
variable [DecidableEq K] {table : Table K B} {codec : Bincode T} {semop : Nat → Except Errno Unit}
  {memory after : TableMemory B} {key : K}

/-- An update that answers with the record that it has read. -/
def Table.updateOnce (table : Table K B) (codec : Bincode T) (semop : Nat → Except Errno Unit)
    (memory : TableMemory B) (key : K) (f : T → T) :
    Option (Except InMemoryTableError (Option T) × TableMemory B) :=
  table.updateWithLock codec semop memory key (fun record => (record, f record))

theorem Table.updateWithLock_once {f : T → R × T} {result : Except InMemoryTableError (Option R)}
    (ran : table.updateWithLock codec semop memory key f = some (result, after)) :
    ∃ once, table.updateOnce codec semop memory key (fun record => (f record).2) =
        some (once, after) ∧
      result = once.map (fun record => record.map (fun record => (f record).1)) := by
  simp only [updateWithLock, Option.bind_eq_bind, Option.bind_eq_some_iff] at ran
  obtain ⟨position, found, ran⟩ := ran
  simp only [updateOnce, updateWithLock, found, Option.bind_eq_bind, Option.bind_some]
  cases position with
  | none =>
    cases ran
    exact ⟨_, rfl, rfl⟩
  | some index =>
    cases locked : table.semaphores.lockRecord semop index with
    | error e =>
      simp only [locked] at ran ⊢
      cases ran
      exact ⟨_, rfl, rfl⟩
    | ok done =>
      cases got : Table.get codec memory index with
      | error e =>
        simp only [locked, got] at ran ⊢
        cases ran
        exact ⟨_, rfl, rfl⟩
      | ok record =>
        cases record with
        | none =>
          simp only [locked, got] at ran ⊢
          cases ran
          exact ⟨_, rfl, rfl⟩
        | some record =>
          cases updated : Table.update codec memory index (f record).2 with
          | mk written memory' =>
            cases written with
            | error e =>
              simp only [locked, got, updated] at ran ⊢
              cases ran
              exact ⟨_, rfl, rfl⟩
            | ok done =>
              simp only [locked, got, updated] at ran ⊢
              cases ran
              exact ⟨_, rfl, rfl⟩

theorem Table.updateMany_once {updater : T → T} {keys : List K} {found : Nat}
    {result : Except InMemoryTableError Nat}
    (ran : table.updateMany codec semop updater memory (key :: keys) found = some (result, after)) :
    ∃ once middle, table.updateOnce codec semop memory key updater = some (once, middle) ∧
      ((∃ e, once = .error e ∧ result = .error e ∧ middle = after) ∨
        (once = .ok none ∧
          table.updateMany codec semop updater middle keys found = some (result, after)) ∨
        ∃ record, once = .ok (some record) ∧
          table.updateMany codec semop updater middle keys (found + 1) = some (result, after)) := by
  simp only [updateMany, Option.bind_eq_bind, Option.bind_eq_some_iff] at ran
  obtain ⟨position, searched, ran⟩ := ran
  simp only [updateOnce, updateWithLock, searched, Option.bind_eq_bind, Option.bind_some]
  cases position with
  | none => exact ⟨_, _, rfl, .inr (.inl ⟨rfl, ran⟩)⟩
  | some index =>
    cases locked : table.semaphores.lockRecord semop index with
    | error e =>
      simp only [locked] at ran ⊢
      cases ran
      exact ⟨_, _, rfl, .inl ⟨e, rfl, rfl, rfl⟩⟩
    | ok done =>
      cases got : Table.get codec memory index with
      | error e =>
        simp only [locked, got] at ran ⊢
        cases ran
        exact ⟨_, _, rfl, .inl ⟨e, rfl, rfl, rfl⟩⟩
      | ok record =>
        cases record with
        | none =>
          simp only [locked, got] at ran ⊢
          exact ⟨_, _, rfl, .inr (.inl ⟨rfl, ran⟩)⟩
        | some record =>
          cases updated : Table.update codec memory index (updater record) with
          | mk written memory' =>
            cases written with
            | error e =>
              simp only [locked, got, updated] at ran ⊢
              cases ran
              exact ⟨_, _, rfl, .inl ⟨e, rfl, rfl, rfl⟩⟩
            | ok done =>
              simp only [locked, got, updated] at ran ⊢
              exact ⟨_, _, rfl, .inr (.inr ⟨record, rfl, ran⟩)⟩

end Once

/-! ### The steps inside a call -/

variable [DecidableEq K] [TableRecord T K] (table : Table K B) (codec : Bincode T)

/-- The client gets from one phase to another without a step of another client. -/
def Phase.Reaches (s t : Shared B × Phase K T R) : Prop :=
  ∃ events, Run (fun s event t => s.2.advance table codec s.1 = some (event, t)) s events t

variable {table codec}

namespace Phase.Reaches
variable {s t u : Shared B × Phase K T R}

theorem refl : Reaches table codec s s := ⟨[], .refl s⟩

theorem step {event : Event K T R} (advanced : s.2.advance table codec s.1 = some (event, t))
    (rest : Reaches table codec t u) : Reaches table codec s u := by
  obtain ⟨events, run⟩ := rest
  exact ⟨event :: events, .next advanced run⟩

theorem trans (first : Reaches table codec s t) (second : Reaches table codec t u) :
    Reaches table codec s u := by
  obtain ⟨events, run⟩ := first
  obtain ⟨events', run'⟩ := second
  exact ⟨events ++ events', run.trans run'⟩

end Phase.Reaches

section Steps
variable {memory : TableMemory B} {semaphores : Semaphores}

omit [DecidableEq K] [TableRecord T K] in
theorem Task.tryLock_ne_wait (task : Task K T R)
    (free : ∀ semNum < table.semaphores.stripes, 0 < semaphores semNum) :
    task.tryLock table (Semaphores.lock table.semaphores.stripes semaphores) ≠ .ok none := by
  intro waits
  have waits := Task.tryLock_semop waits
  unfold Semaphores.lock at waits
  split at waits
  · rename_i valid
    rw [if_pos (free _ valid)] at waits
    cases waits
  · cases waits

theorem Phase.reaches_refused {task : Task K T R} {e : InMemoryTableError}
    (refused : task.tryLock table (Semaphores.lock table.semaphores.stripes semaphores) =
      .error e) :
    Reaches table codec (⟨memory, semaphores⟩, .lock task)
      (⟨memory, semaphores⟩, (task.failed e).phase) :=
  .step (by simp only [advance, refused]; rfl) .refl

/-- A task that gets its semaphore and does its work under it. -/
theorem Phase.reaches_locked {task : Task K T R} {outcome : Option Semaphores}
    {memory' : TableMemory B} {after : After K T R}
    (free : ∀ semNum < table.semaphores.stripes, 0 < semaphores semNum)
    (tried : task.tryLock table (Semaphores.lock table.semaphores.stripes semaphores) = .ok outcome)
    (work : ∀ semaphores, Reaches table codec (⟨memory, semaphores⟩, .locked task)
      (⟨memory', semaphores⟩, .unlock (task.semaphore table) after)) :
    Reaches table codec (⟨memory, semaphores⟩, .lock task)
      (⟨memory', semaphores⟩, after.phase) := by
  cases outcome with
  | none => exact absurd tried (task.tryLock_ne_wait free)
  | some taken =>
    obtain ⟨_, positive, rfl⟩ := Semaphores.lock_ok (Task.tryLock_semop tried)
    have released : Reaches table codec
        (⟨memory', semaphores.take (task.semaphore table)⟩, .unlock (task.semaphore table) after)
        (⟨memory', (semaphores.take (task.semaphore table)).unlock (task.semaphore table)⟩,
          after.phase) := .step rfl .refl
    rw [Semaphores.unlock_take positive] at released
    exact .step (by simp only [advance, tried]; rfl) ((work _).trans released)

end Steps

/-! ### The calls -/

section Calls
variable {memory after : TableMemory B} {semaphores : Semaphores}

theorem Phase.reaches_found {key : K} {result : Except InMemoryTableError (Option T)}
    (ran : table.find codec memory key = some result) :
    Reaches table codec (⟨memory, semaphores⟩, (Operation.find key : Operation K T R).start)
      (⟨memory, semaphores⟩, .reply (.find key) (.found result)) := by
  simp only [Table.find, Option.bind_eq_bind, Option.bind_eq_some_iff] at ran
  obtain ⟨position, found, ran⟩ := ran
  refine .step (by simp only [Operation.start, advance, Request.key, found]; rfl) ?_
  cases position with
  | none =>
    cases ran
    exact .refl
  | some index =>
    cases ran
    exact .step rfl .refl

theorem Phase.reaches_inserted {record : T} {result : Except InMemoryTableError Nat}
    (free : ∀ semNum < table.semaphores.stripes, 0 < semaphores semNum)
    (ran : table.insert codec (Semaphores.semop table.semaphores.stripes semaphores) memory record =
      some (result, after)) :
    Reaches table codec (⟨memory, semaphores⟩, (Operation.insert record : Operation K T R).start)
      (⟨after, semaphores⟩, .reply (.insert record) (.inserted result)) := by
  simp only [Table.insert, Option.bind_eq_bind, Option.bind_eq_some_iff] at ran
  obtain ⟨position, found, ran⟩ := ran
  refine .step (by simp only [Operation.start, advance, Request.key, found]; rfl) ?_
  cases position with
  | some index =>
    cases ran
    exact .refl
  | none =>
    have lock : table.semaphores.lockTable (Semaphores.semop table.semaphores.stripes semaphores) =
        ((Task.insert record : Task K T R).tryLock table
          (Semaphores.lock table.semaphores.stripes semaphores)).map (fun _ => ()) :=
      Locker.tryLock_map ..
    simp only [lock] at ran
    cases tried : (Task.insert record : Task K T R).tryLock table
        (Semaphores.lock table.semaphores.stripes semaphores) with
    | error e =>
      simp only [tried, Except.map] at ran
      cases ran
      exact reaches_refused tried
    | ok outcome =>
      simp only [tried, Except.map] at ran
      have work : ∀ taken, Reaches table codec
          (⟨memory, taken⟩, (.locked (.insert record) : Phase K T R))
          (⟨after, taken⟩, .unlock table.semaphores.tableNumber
            (.reply (.insert record) (.inserted result))) := by
        intro taken
        cases encoded : codec.encode record with
        | error e =>
          simp only [encoded] at ran
          cases ran
          exact .step (by simp only [advance, Phase.work, encoded]; rfl) .refl
        | ok data =>
          refine .step (by simp only [advance, Phase.work, encoded]; rfl) ?_
          cases stored : memory.slots.insert data with
          | mk placed slots =>
            cases placed with
            | error e =>
              simp only [encoded, stored] at ran
              cases ran
              exact .step (by simp only [advance, stored]; rfl) .refl
            | ok index =>
              simp only [encoded, stored, Option.bind_eq_some_iff] at ran
              obtain ⟨⟨linked, block⟩, inserted, ran⟩ := ran
              refine .step (by simp only [advance, stored]; rfl)
                (.step (by simp only [advance, inserted]; rfl) ?_)
              cases linked with
              | error e =>
                cases ran
                exact .refl
              | ok done =>
                cases ran
                exact .refl
      exact reaches_locked free tried work

theorem Phase.reaches_removed {key : K} {result : Except InMemoryTableError Unit}
    (free : ∀ semNum < table.semaphores.stripes, 0 < semaphores semNum)
    (ran : table.remove (Semaphores.semop table.semaphores.stripes semaphores) memory key =
      some (result, after)) :
    Reaches table codec (⟨memory, semaphores⟩, (Operation.remove key : Operation K T R).start)
      (⟨after, semaphores⟩, .reply (.remove key) (.removed result)) := by
  simp only [Table.remove, Option.bind_eq_bind, Option.bind_eq_some_iff] at ran
  obtain ⟨position, found, ran⟩ := ran
  refine .step (by simp only [Operation.start, advance, Request.key, found]; rfl) ?_
  cases position with
  | none =>
    cases ran
    exact .refl
  | some index =>
    have lock : table.semaphores.lockRecord (Semaphores.semop table.semaphores.stripes semaphores)
        index = ((Task.remove key index : Task K T R).tryLock table
          (Semaphores.lock table.semaphores.stripes semaphores)).map (fun _ => ()) :=
      SemaphoreSet.lockRecord_map ..
    simp only [lock] at ran
    cases tried : (Task.remove key index : Task K T R).tryLock table
        (Semaphores.lock table.semaphores.stripes semaphores) with
    | error e =>
      simp only [tried, Except.map] at ran
      cases ran
      exact reaches_refused tried
    | ok outcome =>
      simp only [tried, Except.map, Option.bind_eq_some_iff] at ran
      obtain ⟨⟨unlinked, block⟩, removed, ran⟩ := ran
      cases ran
      have work : ∀ taken, Reaches table codec
          (⟨memory, taken⟩, (.locked (.remove key index) : Phase K T R))
          (⟨{ memory with slots := memory.slots.remove index, index := block }, taken⟩,
            .unlock (table.semaphores.recordNumber index)
              (.reply (.remove key) (.removed unlinked))) := by
        intro taken
        exact .step rfl (.step rfl (.step (by simp only [advance, removed]; rfl) .refl))
      exact reaches_locked free tried work

/-- What follows an update that has answered. -/
def Update.outcome (change : Update K T R) : Except InMemoryTableError (Option T) → After K T R
  | .error e => change.failed e
  | .ok none => change.skipped
  | .ok (some record) => change.completed record

theorem Phase.reaches_updated (change : Update K T R)
    {once : Except InMemoryTableError (Option T)}
    (free : ∀ semNum < table.semaphores.stripes, 0 < semaphores semNum)
    (ran : table.updateOnce codec (Semaphores.semop table.semaphores.stripes semaphores) memory
      change.key change.apply = some (once, after)) :
    Reaches table codec (⟨memory, semaphores⟩, .lookup (.update change))
      (⟨after, semaphores⟩, (change.outcome once).phase) := by
  simp only [Table.updateOnce, Table.updateWithLock, Option.bind_eq_bind,
    Option.bind_eq_some_iff] at ran
  obtain ⟨position, found, ran⟩ := ran
  refine .step (by simp only [advance, Request.key, found]; rfl) ?_
  cases position with
  | none =>
    cases ran
    exact .refl
  | some index =>
    have lock : table.semaphores.lockRecord (Semaphores.semop table.semaphores.stripes semaphores)
        index = ((Task.update change index).tryLock table
          (Semaphores.lock table.semaphores.stripes semaphores)).map (fun _ => ()) :=
      SemaphoreSet.lockRecord_map ..
    simp only [lock] at ran
    cases tried : (Task.update change index).tryLock table
        (Semaphores.lock table.semaphores.stripes semaphores) with
    | error e =>
      simp only [tried, Except.map] at ran
      cases ran
      exact reaches_refused tried
    | ok outcome =>
      simp only [tried, Except.map] at ran
      have work : ∀ taken, Reaches table codec
          (⟨memory, taken⟩, .locked (.update change index))
          (⟨after, taken⟩, .unlock (table.semaphores.recordNumber index) (change.outcome once)) := by
        intro taken
        cases got : Table.get codec memory index with
        | error e =>
          simp only [got] at ran
          cases ran
          exact .step (by simp only [advance, Phase.work, got]; rfl) .refl
        | ok record =>
          cases record with
          | none =>
            simp only [got] at ran
            cases ran
            exact .step (by simp only [advance, Phase.work, got]; rfl) .refl
          | some record =>
            refine .step (by simp only [advance, Phase.work, got]; rfl) ?_
            cases updated : Table.update codec memory index (change.apply record) with
            | mk written memory' =>
              cases written with
              | error e =>
                simp only [got, updated] at ran
                cases ran
                exact .step (by simp only [advance, updated]; rfl) .refl
              | ok done =>
                simp only [got, updated] at ran
                cases ran
                exact .step (by simp only [advance, updated]; rfl) .refl
      exact reaches_locked free tried work

theorem Phase.reaches_updatedMany {updater : T → T} {keys rest : List K} {found : Nat}
    {result : Except InMemoryTableError Nat}
    (free : ∀ semNum < table.semaphores.stripes, 0 < semaphores semNum)
    (ran : table.updateMany codec (Semaphores.semop table.semaphores.stripes semaphores) updater
      memory rest found = some (result, after)) :
    Reaches table codec (⟨memory, semaphores⟩, (After.many updater keys rest found).phase)
      (⟨after, semaphores⟩,
        (.reply (.updateMany keys updater) (.updatedMany result) : Phase K T R)) := by
  induction rest generalizing memory found with
  | nil =>
    cases ran
    exact .refl
  | cons key rest ih =>
    obtain ⟨once, middle, updated, ran⟩ := Table.updateMany_once ran
    refine (reaches_updated (.many key updater keys rest found) free updated).trans ?_
    obtain ⟨e, rfl, rfl, rfl⟩ | ⟨rfl, ran⟩ | ⟨record, rfl, ran⟩ := ran
    · exact .refl
    · exact ih ran
    · exact ih ran

/-- The steps inside a call lead to the reply and the memory of the call made in
one piece, and leave the semaphores as they were. -/
theorem Phase.reaches_reply {operation : Operation K T R} {reply : Reply T R}
    (free : ∀ semNum < table.semaphores.stripes, 0 < semaphores semNum)
    (ran : table.run codec (Semaphores.semop table.semaphores.stripes semaphores) memory operation =
      some (reply, after)) :
    Reaches table codec (⟨memory, semaphores⟩, operation.start)
      (⟨after, semaphores⟩, .reply operation reply) := by
  cases operation with
  | insert record =>
    obtain ⟨⟨result, after⟩, ran, same⟩ := Option.map_eq_some_iff.mp ran
    cases same
    exact reaches_inserted free ran
  | find key =>
    obtain ⟨result, found, same⟩ := Option.map_eq_some_iff.mp ran
    cases same
    exact reaches_found found
  | updateWithLock key f =>
    obtain ⟨⟨result, after⟩, ran, same⟩ := Option.map_eq_some_iff.mp ran
    cases same
    obtain ⟨once, updated, rfl⟩ := Table.updateWithLock_once ran
    have reached := reaches_updated (.withLock key f) free updated
    rcases once with e | _ | record <;> exact reached
  | remove key =>
    obtain ⟨⟨result, after⟩, ran, same⟩ := Option.map_eq_some_iff.mp ran
    cases same
    exact reaches_removed free ran
  | updateMany keys updater =>
    obtain ⟨⟨result, after⟩, ran, same⟩ := Option.map_eq_some_iff.mp ran
    cases same
    exact reaches_updatedMany free ran

end Calls

/-! ### The client that calls -/

theorem Client.next_of_advance {shared shared' : Shared B} {client : Client K T R}
    {event : Event K T R} {phase' : Phase K T R}
    (advanced : client.phase.advance table codec shared = some (event, shared', phase')) :
    next table codec shared client = some (event, shared', { client with phase := phase' }) := by
  unfold next
  cases phase : client.phase with
  | idle =>
    rw [phase] at advanced
    cases advanced
  | reply operation answer =>
    rw [phase] at advanced
    cases advanced
  | _ =>
    rw [phase] at advanced
    simp [advanced]

variable [DecidableEq ι] {config : Config ι (Shared B) (Client K T R)} {c : ι}

theorem Phase.Reaches.lift (config : Config ι (Shared B) (Client K T R)) (c : ι)
    {s t : Shared B × Phase K T R} (client : Client K T R) (reached : Reaches table codec s t) :
    ∃ trace, Run (Client.Steps table codec) (config.moved c s.1 { client with phase := s.2 }) trace
      (config.moved c t.1 { client with phase := t.2 }) := by
  obtain ⟨events, run⟩ := reached
  induction run with
  | refl s => exact ⟨[], .refl _⟩
  | next advanced _ ih =>
    obtain ⟨trace, run⟩ := ih
    exact ⟨_, .next (.again (Client.next_of_advance advanced)) run⟩

/-- A client that nobody interrupts makes its next call as the table makes it in
one piece. -/
theorem Client.run_alone {operation : Operation K T R} {reply : Reply T R}
    {after : TableMemory B}
    (free : ∀ semNum < table.semaphores.stripes, 0 < config.shared.semaphores semNum)
    (idle : (config.client c).phase = .idle)
    (chosen : (config.client c).program (config.client c).replies = some operation)
    (ran : table.run codec (Semaphores.semop table.semaphores.stripes config.shared.semaphores)
      config.shared.memory operation = some (reply, after)) :
    ∃ trace, Run (Steps table codec) config trace
      (config.moved c { config.shared with memory := after }
        { config.client c with replies := (config.client c).replies ++ [reply] }) := by
  have called : Steps table codec config (c, .called operation)
      (config.moved c config.shared { config.client c with phase := operation.start }) :=
    .move (by simp [Computes, next, idle, chosen])
  obtain ⟨trace, run⟩ := (Phase.reaches_reply free ran).lift config c (config.client c)
  have replied : Steps table codec
      (config.moved c { config.shared with memory := after }
        { config.client c with phase := .reply operation reply })
      (c, .replied operation reply)
      (config.moved c { config.shared with memory := after }
        { config.client c with replies := (config.client c).replies ++ [reply] }) :=
    .again (by simp [Computes, next, idle])
  exact ⟨_, .next called (run.trans (.next replied (.refl _)))⟩

end InMemoryTable
