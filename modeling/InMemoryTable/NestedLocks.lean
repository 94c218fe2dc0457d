import InMemoryTable.IndexLock
import InMemoryTable.Library.Ledger
import InMemoryTable.Start

/-! Clients of one table whose index calls are taken apart as well: the index
semaphore is acquired alone or inside the semaphore of the table or of a record. -/
namespace InMemoryTable
open Interleaving Transition

variable {K T R B ι : Type}

structure NestedShared (B : Type) extends Shared B where
  indexSemaphores : Semaphores

/-- The next step is a call of the index. -/
def Phase.callsIndex : Phase K T R → Bool
  | .lookup _ | .insertIndex _ _ | .removeIndex _ _ => true
  | _ => false

/-- Where a client is in a call of the index: outside, in the body, or behind it
with the lock still in scope. -/
inductive Stage (K T R : Type) where
  | outside (phase : Phase K T R)
  | body (lock : IndexLock) (phase : Phase K T R) (indexed : phase.callsIndex = true)
  | drop (lock : IndexLock) (phase : Phase K T R)

inductive NestedEvent (K T R : Type) where
  | locked (lock : IndexLock)
  | dropped (lock : IndexLock)
  | moved (event : Event K T R)

structure NestedClient (K T R : Type) where
  program : List (Reply T R) → Option (Operation K T R)
  replies : List (Reply T R)
  stage : Stage K T R

/-- The semaphores of the two sets of a table. -/
inductive SemaphoreName where
  | table (semNum : Nat)
  | index
  deriving DecidableEq

def NestedShared.value (shared : NestedShared B) : SemaphoreName → Nat
  | .table semNum => shared.semaphores semNum
  | .index => shared.indexSemaphores 0

def SemaphoreName.Exists (table : Table K B) : SemaphoreName → Prop
  | .table semNum => semNum < table.semaphores.stripes
  | .index => True

namespace Stage

def phase : Stage K T R → Phase K T R
  | outside phase | body _ phase _ | drop _ phase => phase

def holdingIndex : Stage K T R → Option Nat
  | outside _ => none
  | body lock _ _ | drop lock _ => lock.holding

def Holds (table : Table K B) (stage : Stage K T R) : SemaphoreName → Prop
  | .table semNum => stage.phase.holding table = some semNum
  | .index => stage.holdingIndex = some 0

end Stage

/-- The semaphore that a step takes. -/
def Event.takes (table : Table K B) : Event K T R → Option Nat
  | .locked task => some (task.semaphore table)
  | _ => none

def Event.gives : Event K T R → Option Nat
  | .unlocked semNum => some semNum
  | _ => none

namespace NestedEvent

def takes (table : Table K B) : NestedEvent K T R → Option SemaphoreName
  | locked (.ok ()) => some .index
  | moved event => (event.takes table).map .table
  | _ => none

def gives : NestedEvent K T R → Option SemaphoreName
  | dropped (.ok ()) => some .index
  | moved event => event.gives.map .table
  | _ => none

/-- What the step is to an observer who takes index calls for atomic. -/
def event : NestedEvent K T R → Option (Event K T R)
  | moved event => some event
  | _ => none

end NestedEvent

section Steps
variable [DecidableEq K] [TableRecord T K] (table : Table K B) (codec : Bincode T)
  (indexSemId : Nat)

def Stage.advance (shared : NestedShared B) :
    Stage K T R → Option (NestedEvent K T R × NestedShared B × Stage K T R)
  | .outside phase =>
    if indexed : phase.callsIndex = true then do
      let (lock, indexSemaphores) ← Index.lockTable indexSemId none shared.indexSemaphores
      some (.locked lock, { shared with indexSemaphores }, .body lock phase indexed)
    else do
      let (event, after, next) ← phase.advance table codec shared.toShared
      some (.moved event, { shared with toShared := after }, .outside next)
  | .body lock phase _ => do
    let (event, after, next) ← phase.advance table codec shared.toShared
    some (.moved event, { shared with toShared := after }, .drop lock next)
  | .drop lock phase =>
    let indexSemaphores := Index.dropLock indexSemId shared.indexSemaphores lock
    some (.dropped lock, { shared with indexSemaphores }, .outside phase)

namespace NestedClient

def next (shared : NestedShared B) (client : NestedClient K T R) :
    Option (NestedEvent K T R × NestedShared B × NestedClient K T R) :=
  match client.stage with
  | .outside .idle =>
    (client.program client.replies).map (fun operation =>
      (.moved (.called operation), shared, { client with stage := .outside operation.start }))
  | .outside (.reply operation answer) =>
    some (.moved (.replied operation answer), shared,
      { client with replies := client.replies ++ [answer], stage := .outside .idle })
  | stage =>
    (stage.advance table codec indexSemId shared).map
      (fun (event, shared, stage) => (event, shared, { client with stage }))

abbrev Steps [DecidableEq ι] :
    Config ι (NestedShared B) (NestedClient K T R) → ι × NestedEvent K T R →
      Config ι (NestedShared B) (NestedClient K T R) → Prop :=
  Step (Computes (next table codec indexSemId))

variable (client : NestedClient K T R)

/-- The last call has returned. -/
def Returned : Prop :=
  client.stage = .outside .idle ∨
    ∃ operation answer, client.stage = .outside (.reply operation answer)

/-- The program has no call left. -/
def Finished : Prop := client.stage = .outside .idle ∧ client.program client.replies = none

end NestedClient

end Steps

variable [DecidableEq K] [TableRecord T K] {table : Table K B} {codec : Bincode T}
  {indexSemId : Nat} {shared after : NestedShared B} {stage next : Stage K T R}
  {event : NestedEvent K T R}

/-- What a step does to the semaphore of the index; the rest is a step of a
client whose index calls are atomic. -/
inductive NestedEffect (table : Table K B) (codec : Bincode T) (shared : NestedShared B) :
    Stage K T R → NestedEvent K T R → NestedShared B → Stage K T R → Prop where
  | locked {phase : Phase K T R} (indexed : phase.callsIndex = true) :
      0 < shared.indexSemaphores 0 →
      NestedEffect table codec shared (.outside phase) (.locked (.ok ()))
        { shared with indexSemaphores := shared.indexSemaphores.take 0 }
        (.body (.ok ()) phase indexed)
  | moved {phase next : Phase K T R} {event : Event K T R} {after : Shared B} :
      Effect table codec (fun _ => True) shared.toShared phase event after next →
      NestedEffect table codec shared (.outside phase) (.moved event)
        { shared with toShared := after } (.outside next)
  | ran {lock : IndexLock} {phase next : Phase K T R} {indexed : phase.callsIndex = true}
      {event : Event K T R} {after : Shared B} :
      Effect table codec (fun _ => True) shared.toShared phase event after next →
      NestedEffect table codec shared (.body lock phase indexed) (.moved event)
        { shared with toShared := after } (.drop lock next)
  | dropped {phase : Phase K T R} {e : InMemoryTableError} :
      NestedEffect table codec shared (.drop (.error e) phase) (.dropped (.error e)) shared
        (.outside phase)
  | unlocked {phase : Phase K T R} :
      NestedEffect table codec shared (.drop (.ok ()) phase) (.dropped (.ok ()))
        { shared with indexSemaphores := shared.indexSemaphores.unlock 0 } (.outside phase)

theorem Stage.advance_effect
    (advanced : stage.advance table codec indexSemId shared = some (event, after, next)) :
    NestedEffect table codec shared stage event after next := by
  cases stage with
  | outside phase =>
    simp only [advance, Option.bind_eq_bind] at advanced
    split at advanced
    · rename_i indexed
      obtain ⟨⟨lock, semaphores⟩, tried, advanced⟩ := Option.bind_eq_some_iff.mp advanced
      cases advanced
      obtain ⟨_, _, failure, _⟩ | ⟨_, rfl, positive, rfl⟩ := Index.lockTable_cases tried
      · cases failure
      · exact .locked indexed positive
    · obtain ⟨⟨event, after, next⟩, moved, advanced⟩ := Option.bind_eq_some_iff.mp advanced
      cases advanced
      exact .moved (Phase.advance_effect moved)
  | body lock phase indexed =>
    simp only [advance, Option.bind_eq_bind] at advanced
    obtain ⟨⟨event, after, next⟩, moved, advanced⟩ := Option.bind_eq_some_iff.mp advanced
    cases advanced
    exact .ran (Phase.advance_effect moved)
  | drop lock phase =>
    cases advanced
    cases lock with
    | ok done => exact .unlocked
    | error e => exact .dropped

theorem NestedClient.next_effect {client moved : NestedClient K T R}
    (stepped : Computes (NestedClient.next table codec indexSemId) shared client event after
      moved) :
    NestedEffect table codec shared client.stage event after moved.stage := by
  unfold Computes NestedClient.next at stepped
  split at stepped
  · rename_i idle
    rw [idle]
    obtain ⟨operation, _, same⟩ := Option.map_eq_some_iff.mp stepped
    cases same
    exact .moved (.called trivial)
  · rename_i operation answer replying
    rw [replying]
    cases stepped
    exact .moved .replied
  · obtain ⟨⟨event, shared, stage⟩, advanced, same⟩ := Option.map_eq_some_iff.mp stepped
    cases same
    exact Stage.advance_effect advanced

/-! ### The books of the semaphores -/

theorem Effect.balanced {shared after : Shared B} {phase next : Phase K T R}
    {event : Event K T R} {calls : Operation K T R → Prop}
    (effect : Effect table codec calls shared phase event after next) :
    Ledger.Balanced (Event.takes table) Event.gives (fun x => phase.holding table = some x) event
      (fun x => next.holding table = some x) := by
  cases effect with
  | locked =>
    refine ⟨fun x taken => ⟨nofun, nofun, taken⟩, fun x given => (by cases given), ?_⟩
    exact fun x other _ => iff_of_false other nofun
  | unlocked =>
    refine ⟨fun x taken => (by cases taken), fun x given => ⟨nofun, given, by simp⟩, ?_⟩
    exact fun x _ other => iff_of_false (by simp) other
  | called => exact .quiet rfl rfl (by simp only [Operation.holding_start]; rfl)
  | searched => exact .quiet rfl rfl (by simp only [Request.holding_found]; rfl)
  | refused => exact .quiet rfl rfl (by simp only [After.holding_phase]; rfl)
  | _ => exact .quiet rfl rfl rfl

omit [DecidableEq K] [TableRecord T K] in
theorem Stage.balanced_moved {event : Event K T R}
    (books : Ledger.Balanced (Event.takes table) Event.gives
      (fun x => stage.phase.holding table = some x) event
      (fun x => next.phase.holding table = some x))
    (same : next.holdingIndex = stage.holdingIndex) :
    Ledger.Balanced (NestedEvent.takes table) NestedEvent.gives (stage.Holds table) (.moved event)
      (next.Holds table) where
  taken name taken := by
    obtain ⟨x, took, rfl⟩ := Option.map_eq_some_iff.mp taken
    obtain ⟨notGiven, before, after⟩ := books.taken x took
    exact ⟨by simpa [NestedEvent.gives] using notGiven, before, after⟩
  given name given := by
    obtain ⟨x, gave, rfl⟩ := Option.map_eq_some_iff.mp given
    obtain ⟨notTaken, before, after⟩ := books.given x gave
    exact ⟨by simpa [NestedEvent.takes] using notTaken, before, after⟩
  kept name taken given := by
    cases name with
    | table x =>
      exact books.kept x (by simpa [NestedEvent.takes] using taken)
        (by simpa [NestedEvent.gives] using given)
    | index => simp only [Stage.Holds, same]

theorem NestedEffect.balanced (effect : NestedEffect table codec shared stage event after next) :
    Ledger.Balanced (NestedEvent.takes table) NestedEvent.gives (stage.Holds table) event
      (next.Holds table) := by
  cases effect with
  | moved moves => exact Stage.balanced_moved moves.balanced rfl
  | ran moves => exact Stage.balanced_moved moves.balanced rfl
  | dropped => exact .quiet rfl rfl (by funext name; cases name <;> rfl)
  | locked indexed positive =>
    refine ⟨?_, fun _ given => (by cases given), ?_⟩
    · rintro _ ⟨⟩
      exact ⟨nofun, nofun, rfl⟩
    · intro name other _
      cases name with
      | table x => rfl
      | index => exact absurd rfl other
  | unlocked =>
    refine ⟨fun _ taken => (by cases taken), ?_, ?_⟩
    · rintro _ ⟨⟩
      exact ⟨nofun, rfl, nofun⟩
    · intro name _ other
      cases name with
      | table x => rfl
      | index => exact absurd rfl other

/-! ### Who holds the semaphore of the index -/

theorem NestedEffect.holdingIndex
    (effect : NestedEffect table codec shared stage event after next) :
    (after.indexSemaphores = shared.indexSemaphores ∧ next.holdingIndex = stage.holdingIndex) ∨
    (0 < shared.indexSemaphores 0 ∧ stage.holdingIndex = none ∧ next.holdingIndex = some 0 ∧
      after.indexSemaphores = shared.indexSemaphores.take 0) ∨
    (stage.holdingIndex = some 0 ∧ next.holdingIndex = none ∧
      after.indexSemaphores = shared.indexSemaphores.unlock 0) := by
  cases effect with
  | locked indexed positive => exact .inr (.inl ⟨positive, rfl, rfl, rfl⟩)
  | unlocked => exact .inr (.inr ⟨rfl, rfl, rfl⟩)
  | _ => exact .inl ⟨rfl, rfl⟩

variable [DecidableEq ι]

def IndexOwned (config : Config ι (NestedShared B) (NestedClient K T R)) : Prop :=
  Ownership.Exclusive 1 config.shared.indexSemaphores
    (fun c => (config.client c).stage.holdingIndex)

variable {config last : Config ι (NestedShared B) (NestedClient K T R)}
  {trace : List (ι × NestedEvent K T R)} {label : ι × NestedEvent K T R}

theorem IndexOwned.step (owned : IndexOwned config)
    (stepped : NestedClient.Steps table codec indexSemId config label last) : IndexOwned last := by
  obtain ⟨moves⟩ := stepped
  rename_i c event shared own
  unfold IndexOwned
  rw [config.moved_comp c shared own (fun client => client.stage.holdingIndex), Config.moved_shared]
  rcases (NestedClient.next_effect moves).holdingIndex with ⟨kept, same⟩ |
    ⟨positive, free, taken, semaphores⟩ | ⟨held, released, semaphores⟩
  · rw [kept, same, Function.update_eq_self_iff.mpr rfl]
    exact owned
  · rw [taken, semaphores]
    exact owned.acquire free Nat.zero_lt_one positive
  · rw [released, semaphores]
    exact owned.release held

/-- The same clients with atomic index calls. -/
def atomicIndex (config : Config ι (NestedShared B) (NestedClient K T R)) : Phases ι K T R B :=
  config.view NestedShared.toShared (fun client => client.stage.phase)

/-- Every interleaving is one of clients whose index calls are atomic. -/
theorem NestedClient.run_atomicIndex
    (run : Run (NestedClient.Steps table codec indexSemId) config trace last) :
    Run (Step (Effect table codec (fun _ => True))) (atomicIndex config)
      (visible NestedEvent.event trace) (atomicIndex last) := by
  apply run_view _ run
  intro shared client event after moved stepped
  generalize stage : client.stage = before, next : moved.stage = behind
  have effect := NestedClient.next_effect stepped
  rw [stage, next] at effect
  cases effect with
  | moved moves => exact .inr ⟨_, rfl, moves⟩
  | ran moves => exact .inr ⟨_, rfl, moves⟩
  | _ => exact .inl ⟨rfl, rfl, rfl⟩

/-! ### Every call of the index returns -/

/-- The index refines a multimap, or it has no node at all. -/
def Index.Responsive (index : Index K B) (block : IndexBlock B) : Prop :=
  (0 < index.totalBuckets ∧ ∃ capacity entries, index.Refines capacity block entries) ∨
  ((∀ bucket, (block.buckets bucket).get = none) ∧
    block.slots.header.capacity ≤ block.slots.header.count)

namespace Index.Responsive
variable {index : Index K B} {block : IndexBlock B}

omit [DecidableEq ι] in
theorem call (responsive : index.Responsive block) (request : IndexCall K) :
    ∃ reply after, index.call block request = some (reply, after) ∧ index.Responsive after := by
  rcases responsive with ⟨buckets, capacity, entries, refines⟩ | ⟨empty, full⟩
  · obtain ⟨after, called, refined⟩ := refines.call_multimap buckets request
    exact ⟨_, after, called, .inl ⟨buckets, capacity, _, refined⟩⟩
  · cases request with
    | insert key position =>
      refine ⟨.inserted (.error (.tableFull block.slots.header.count block.slots.header.capacity)),
        block, ?_, .inr ⟨empty, full⟩⟩
      simp only [Index.call, Index.insert, empty, insertNode, Slots.insert_full full]
      rfl
    | remove key =>
      refine ⟨.removed (.ok ()), block, ?_, .inr ⟨empty, full⟩⟩
      simp only [Index.call, Index.remove, search, empty]
      rfl
    | get key =>
      refine ⟨.found none, block, ?_, .inr ⟨empty, full⟩⟩
      simp only [Index.call, Index.get, search, empty]
      rfl

theorem get (responsive : index.Responsive block) (key : K) :
    ∃ position, index.get block key = some position := by
  obtain ⟨reply, after, called, _⟩ := responsive.call (.get key)
  obtain ⟨position, found, _⟩ := Option.map_eq_some_iff.mp called
  exact ⟨position, found⟩

theorem insert (responsive : index.Responsive block) (key : K) (position : Nat) :
    ∃ result after, index.insert block key position = some (result, after) ∧
      index.Responsive after := by
  obtain ⟨reply, after, called, responsive⟩ := responsive.call (.insert key position)
  obtain ⟨⟨result, block⟩, inserted, same⟩ := Option.map_eq_some_iff.mp called
  cases same
  exact ⟨result, _, inserted, responsive⟩

theorem remove (responsive : index.Responsive block) (key : K) :
    ∃ result after, index.remove block key = some (result, after) ∧ index.Responsive after := by
  obtain ⟨reply, after, called, responsive⟩ := responsive.call (.remove key)
  obtain ⟨⟨result, block⟩, removed, same⟩ := Option.map_eq_some_iff.mp called
  cases same
  exact ⟨result, _, removed, responsive⟩

end Index.Responsive

omit [DecidableEq K] in
theorem Index.handle_responsive [Inhabited K] (layout : NodeLayout K B) (hasher : K → Nat)
    (capacity : Nat) (nodes : Nat → Slot B) :
    (Index.handle layout hasher capacity).Responsive
      ((Index.handle layout hasher capacity).newBlock capacity nodes) := by
  rcases Nat.eq_zero_or_pos capacity with rfl | positive
  · exact .inr ⟨fun _ => rfl, Nat.le_refl 0⟩
  · exact .inl ⟨totalBuckets_pos positive, capacity, [], Index.newBlock_refines _ capacity nodes⟩

omit [DecidableEq K] in
theorem Table.update_index {memory after : TableMemory B} {index : Nat} {record : T}
    {result : Except InMemoryTableError Unit}
    (updated : Table.update codec memory index record = (result, after)) :
    after.index = memory.index := by
  unfold Table.update at updated
  split at updated <;> cases updated <;> rfl

section Progress
variable {calls : Operation K T R → Prop} {table : Table K B}

theorem Effect.responsive {shared after : Shared B} {phase next : Phase K T R} {event : Event K T R}
    (effect : Effect table codec calls shared phase event after next)
    (responsive : table.primaryKeys.Responsive shared.memory.index) :
    table.primaryKeys.Responsive after.memory.index := by
  cases effect with
  | linked linked =>
    obtain ⟨_, _, linked', responsive⟩ := responsive.insert _ _
    cases linked.symm.trans linked'
    exact responsive
  | unlinked unlinked =>
    obtain ⟨_, _, unlinked', responsive⟩ := responsive.remove _
    cases unlinked.symm.trans unlinked'
    exact responsive
  | unwritten wrote =>
    rwa [Table.update_index wrote]
  | written wrote =>
    rwa [Table.update_index wrote]
  | _ => exact responsive

/-- Inside a call a client only ever waits for a semaphore. -/
theorem Phase.advances (codec : Bincode T) {shared : Shared B}
    (responsive : table.primaryKeys.Responsive shared.memory.index) (phase : Phase K T R) :
    phase = .idle ∨ (∃ operation answer, phase = .reply operation answer) ∨
      (∃ task, phase = .lock task) ∨ ∃ moved, phase.advance table codec shared = some moved := by
  cases phase with
  | idle => exact .inl rfl
  | reply operation answer => exact .inr (.inl ⟨operation, answer, rfl⟩)
  | lock task => exact .inr (.inr (.inl ⟨task, rfl⟩))
  | lookup request =>
    obtain ⟨position, found⟩ := responsive.get request.key
    exact .inr (.inr (.inr ⟨_, by simp only [advance, found]; rfl⟩))
  | insertIndex record index =>
    obtain ⟨result, after, inserted, _⟩ := responsive.insert (TableRecord.key record) index
    exact .inr (.inr (.inr ⟨_, by simp only [advance, inserted]; rfl⟩))
  | removeIndex key index =>
    obtain ⟨result, after, removed, _⟩ := responsive.remove key
    exact .inr (.inr (.inr ⟨_, by simp only [advance, removed]; rfl⟩))
  | insertInside record data =>
    refine .inr (.inr (.inr ?_))
    simp only [advance]
    split <;> exact ⟨_, rfl⟩
  | updateWrite change index record =>
    refine .inr (.inr (.inr ?_))
    simp only [advance]
    split <;> exact ⟨_, rfl⟩
  | _ => exact .inr (.inr (.inr ⟨_, rfl⟩))

/-- A task waits only for a semaphore of the set that somebody has taken. -/
theorem Phase.lock_advances (codec : Bincode T) {shared : Shared B} (task : Task K T R)
    (free : ∀ x < table.semaphores.stripes, 0 < shared.semaphores x) :
    ∃ moved, (Phase.lock task).advance table codec shared = some moved := by
  simp only [advance]
  split
  · exact ⟨_, rfl⟩
  · rename_i waiting
    have waits := Task.tryLock_semop waiting
    unfold Semaphores.lock at waits
    split at waits
    · rename_i valid
      simp [free _ valid] at waits
    · cases waits
  · exact ⟨_, rfl⟩

/-- Some client can take a step. -/
def CanStep (table : Table K B) (codec : Bincode T) (indexSemId : Nat)
    (config : Config ι (NestedShared B) (NestedClient K T R)) : Prop :=
  ∃ label next, NestedClient.Steps table codec indexSemId config label next

theorem canStep_of_next (c : ι) {moved : NestedEvent K T R × NestedShared B × NestedClient K T R}
    (moves : NestedClient.next table codec indexSemId config.shared (config.client c) =
      some moved) : CanStep table codec indexSemId config := by
  obtain ⟨event, shared, client⟩ := moved
  exact ⟨_, _, .move moves⟩

theorem canStep_of_advance {c : ι} {stage : Stage K T R} (own : (config.client c).stage = stage)
    {moved : NestedEvent K T R × NestedShared B × Stage K T R}
    (advanced : stage.advance table codec indexSemId config.shared = some moved) :
    CanStep table codec indexSemId config := by
  have moves : ∃ moved, NestedClient.next table codec indexSemId config.shared (config.client c) =
      some moved := by
    unfold NestedClient.next
    rw [own]
    split
    · cases advanced
    · exact ⟨_, rfl⟩
    · exact ⟨_, by rw [advanced]; rfl⟩
  obtain ⟨moved, moves⟩ := moves
  exact canStep_of_next c moves

theorem canStep_of_body (responsive : table.primaryKeys.Responsive config.shared.memory.index)
    {c : ι} {lock : IndexLock} {phase : Phase K T R} {indexed : phase.callsIndex = true}
    (own : (config.client c).stage = .body lock phase indexed) :
    CanStep table codec indexSemId config := by
  obtain rfl | ⟨_, _, rfl⟩ | ⟨_, rfl⟩ | ⟨⟨event, after, next⟩, advanced⟩ :=
    Phase.advances codec responsive phase
  · cases indexed
  · cases indexed
  · cases indexed
  · exact canStep_of_advance own (by simp only [Stage.advance, advanced]; rfl)

/-- The holder of the index semaphore is never kept waiting. -/
theorem canStep_of_holdingIndex
    (responsive : table.primaryKeys.Responsive config.shared.memory.index) {c : ι}
    (held : (config.client c).stage.holdingIndex = some 0) :
    CanStep table codec indexSemId config := by
  cases own : (config.client c).stage with
  | outside phase =>
    rw [own] at held
    cases held
  | body lock phase indexed => exact canStep_of_body responsive own
  | drop lock phase => exact canStep_of_advance own rfl

theorem canStep_of_callsIndex (responsive : table.primaryKeys.Responsive config.shared.memory.index)
    (owned : IndexOwned config) {c : ι} {phase : Phase K T R}
    (own : (config.client c).stage = .outside phase) (indexed : phase.callsIndex = true) :
    CanStep table codec indexSemId config := by
  by_cases free : 0 < config.shared.indexSemaphores 0
  · exact canStep_of_advance own
      (by simp only [Stage.advance, indexed, Index.lockTable_eq, free]; rfl)
  · obtain ⟨d, held⟩ := owned.exists_holder Nat.zero_lt_one free
    exact canStep_of_holdingIndex responsive held

/-- The holder of the semaphore of the table or of a record waits at most for
the semaphore of the index. -/
theorem canStep_of_holding (responsive : table.primaryKeys.Responsive config.shared.memory.index)
    (owned : IndexOwned config) {c : ι} {x : Nat}
    (held : (config.client c).stage.phase.holding table = some x) :
    CanStep table codec indexSemId config := by
  cases own : (config.client c).stage with
  | outside phase =>
    rw [own] at held
    cases indexed : phase.callsIndex with
    | true => exact canStep_of_callsIndex responsive owned own indexed
    | false =>
      obtain rfl | ⟨_, _, rfl⟩ | ⟨_, rfl⟩ | ⟨⟨event, after, next⟩, advanced⟩ :=
        Phase.advances codec responsive phase
      · cases held
      · cases held
      · cases held
      · exact canStep_of_advance own (by simp only [Stage.advance, indexed, advanced]; rfl)
  | body lock phase indexed => exact canStep_of_body responsive own
  | drop lock phase => exact canStep_of_advance own rfl

/-- What holds in every state that the clients reach. -/
structure Nested (table : Table K B) (config : Config ι (NestedShared B) (NestedClient K T R)) :
    Prop where
  responsive : table.primaryKeys.Responsive config.shared.memory.index
  exclusive : Exclusive table (atomicIndex config)
  owned : IndexOwned config

theorem Nested.canStep (nested : Nested table config) {c : ι}
    (unfinished : ¬ (config.client c).Finished) : CanStep table codec indexSemId config := by
  cases own : (config.client c).stage with
  | body lock phase indexed => exact canStep_of_body nested.responsive own
  | drop lock phase => exact canStep_of_advance own rfl
  | outside phase =>
    cases indexed : phase.callsIndex with
    | true => exact canStep_of_callsIndex nested.responsive nested.owned own indexed
    | false =>
      obtain rfl | ⟨operation, answer, rfl⟩ | ⟨task, rfl⟩ | ⟨⟨event, after, next⟩, advanced⟩ :=
        Phase.advances codec nested.responsive phase
      · cases chosen : (config.client c).program (config.client c).replies with
        | none => exact absurd ⟨own, chosen⟩ unfinished
        | some operation =>
          exact canStep_of_next c (by simp only [NestedClient.next, own, chosen]; rfl)
      · exact canStep_of_next c (by simp only [NestedClient.next, own]; rfl)
      · by_cases free : ∀ x < table.semaphores.stripes, 0 < config.shared.semaphores x
        · obtain ⟨⟨event, after, next⟩, advanced⟩ := Phase.lock_advances codec task free
          exact canStep_of_advance own (by simp only [Stage.advance, indexed, advanced]; rfl)
        · simp only [not_forall] at free
          obtain ⟨x, valid, taken⟩ := free
          obtain ⟨d, held⟩ := nested.exclusive.exists_holder valid taken
          exact canStep_of_holding nested.responsive nested.owned held
      · exact canStep_of_advance own (by simp only [Stage.advance, indexed, advanced]; rfl)

end Progress

/-- Clients between two calls, and all semaphores of both sets free. -/
def nestedStart (memory : TableMemory B)
    (programs : ι → List (Reply T R) → Option (Operation K T R)) :
    Config ι (NestedShared B) (NestedClient K T R) :=
  { shared := { memory, semaphores := fun _ => 1, indexSemaphores := fun _ => 1 }
    client := fun c => { program := programs c, replies := [], stage := .outside .idle } }

/-- In every state that any clients of a new table reach: a semaphore has the
value one less its holders, who has returned holds none, and a client that has
not finished finds somebody who can take a step. -/
theorem semaphores_never_deadlock [Inhabited K] (layout : NodeLayout K B) (hasher : K → Nat)
    (semId indexSemId : Nat) (codec : Bincode T) (capacity recordSize : Nat)
    (data : Nat → Slot UInt8) (nodes : Nat → Slot B)
    (programs : ι → List (Reply T R) → Option (Operation K T R))
    (trace : List (ι × NestedEvent K T R))
    (last : Config ι (NestedShared B) (NestedClient K T R))
    (run : Run (NestedClient.Steps (Table.handle layout hasher semId capacity) codec indexSemId)
      (nestedStart
        (Table.createWithSize layout hasher semId capacity recordSize data nodes).2 programs)
      trace last) :
    (∀ name : SemaphoreName, name.Exists (Table.handle layout hasher semId capacity) →
      (last.shared.value name : ENat) +
        {c | Ledger.Holds (NestedEvent.takes (Table.handle layout hasher semId capacity))
          NestedEvent.gives trace c name}.encard = 1) ∧
    (∀ c, (last.client c).Returned → ∀ name,
      ¬ Ledger.Holds (NestedEvent.takes (Table.handle layout hasher semId capacity))
        NestedEvent.gives trace c name) ∧
    ∀ c, ¬ (last.client c).Finished → ∃ label next,
      NestedClient.Steps (Table.handle layout hasher semId capacity) codec indexSemId last
        label next := by
  have atomic := NestedClient.run_atomicIndex run
  have nested : Nested (Table.handle layout hasher semId capacity) last := by
    refine ⟨?_, ?_, ?_⟩
    · refine atomic.invariant (P := fun config => (Index.handle layout hasher capacity).Responsive
        config.shared.memory.index) ?_ (Index.handle_responsive layout hasher capacity nodes)
      rintro config label after responsive ⟨moves⟩
      exact moves.responsive responsive
    · exact atomic.invariant (fun exclusive stepped => exclusive.step stepped)
        (Quiet.exclusive ⟨fun _ _ => rfl, fun _ => rfl⟩)
    · exact run.invariant (fun owned stepped => owned.step stepped)
        (.initial (fun _ _ => rfl) (fun _ => rfl))
  have kept : Ledger.Kept (NestedEvent.takes (Table.handle layout hasher semId capacity))
      NestedEvent.gives
      (fun client => client.stage.Holds (Table.handle layout hasher semId capacity)) trace last := by
    refine .run (fun moves => (NestedClient.next_effect moves).balanced) run ?_
    rintro c (semNum | _) held <;> cases held
  refine ⟨?_, ?_, fun c unfinished => nested.canStep unfinished⟩
  · intro name valid
    simp only [kept.holds_iff]
    cases name with
    | table semNum => exact nested.exclusive.value_add_holders valid
    | index => exact nested.owned.value_add_holders Nat.zero_lt_one
  · intro c returned name
    rw [kept.holds_iff]
    intro held
    rcases returned with own | ⟨operation, answer, own⟩ <;> rw [own] at held <;>
      cases name <;> cases held

/-- One client inserts a record while the other one looks for it. -/
def nestedSample :
    Config Bool (NestedShared (Node UInt8)) (NestedClient UInt8 (UInt8 × UInt8) Unit) :=
  nestedStart
    (Table.createWithSize (.cell UInt8) UInt8.toNat 0 2 2 (fun _ => ⟨.free, 0, []⟩)
      (fun _ => ⟨.free, 0, []⟩)).2
    (fun c replies => (if c then [.find 2] else [.insert (2, 5)])[replies.length]?)

/-- The inserting client links its node, holding both semaphores; the other one
waits for the index. -/
theorem semaphores_never_deadlock_sample :
    ∃ trace last, Run (NestedClient.Steps twoRecords .twoBytes 1) nestedSample trace last ∧
      last.shared.value (.table twoRecords.semaphores.tableNumber) = 0 ∧
      last.shared.value .index = 0 ∧
      ∃ label next, NestedClient.Steps twoRecords .twoBytes 1 last label next := by
  obtain ⟨trace, last, checked, run⟩ := exists_run (NestedClient.next twoRecords .twoBytes 1)
    (fun _ _ => true) nestedSample
    [true, false, false, false, false, false, false, false, false]
    (fun _ last => last.shared.semaphores twoRecords.semaphores.tableNumber == 0 &&
      last.shared.indexSemaphores 0 == 0 && !(last.client true).stage.phase.isIdle)
    (by decide +kernel)
  simp only [Bool.and_eq_true, beq_iff_eq, Bool.not_eq_true'] at checked
  obtain ⟨⟨table, index⟩, waiting⟩ := checked
  obtain ⟨_, _, progress⟩ := semaphores_never_deadlock (.cell UInt8) UInt8.toNat 0 1 .twoBytes 2 2
    _ _ _ trace last run.unguarded
  refine ⟨trace, last, run.unguarded, table, index, progress true ?_⟩
  rintro ⟨idle, _⟩
  rw [idle] at waiting
  cases waiting

end InMemoryTable
