import InMemoryTable.Termination

/-! Processes that die in the middle of a call. Every operation on a semaphore has the
flag `SEM_UNDO`: the kernel adds up in `semadj` what would take back the operations
of a process, and applies it when the process ends. -/
namespace InMemoryTable
open Interleaving Transition

variable {K T R B ι : Type}

/-- A process with its `semadj` for the semaphores of a table, or what is left of it. -/
inductive Mortal (K T R : Type) where
  | alive (client : NestedClient K T R) (semadj : SemaphoreName → Int)
  | dead

inductive MortalEvent (K T R : Type) where
  | lived (event : NestedEvent K T R)
  | died

/-- `semadj` after an operation on a semaphore: it counts what the operation took. -/
def NestedEvent.adjust (table : Table K B) (event : NestedEvent K T R)
    (semadj : SemaphoreName → Int) (name : SemaphoreName) : Int :=
  semadj name + (if event.takes table = some name then 1 else 0) -
    if event.gives = some name then 1 else 0

/-- What the kernel does to the semaphores when a process ends. -/
def NestedShared.undo (shared : NestedShared B) (semadj : SemaphoreName → Int) : NestedShared B :=
  { shared with
    semaphores := fun semNum => (shared.semaphores semNum + semadj (.table semNum)).toNat
    indexSemaphores := Function.update shared.indexSemaphores 0
      (shared.indexSemaphores 0 + semadj .index).toNat }

namespace Mortal
variable [DecidableEq K] [TableRecord T K] (table : Table K B) (codec : Bincode T)
  (indexSemId : Nat)

/-- A process takes a step of its program or dies, whatever it is doing. -/
inductive Moves (shared : NestedShared B) :
    Mortal K T R → MortalEvent K T R → NestedShared B → Mortal K T R → Prop where
  | lived {client moved : NestedClient K T R} {event : NestedEvent K T R} {after : NestedShared B}
      {semadj : SemaphoreName → Int} :
      Computes (NestedClient.next table codec indexSemId) shared client event after moved →
      Moves shared (.alive client semadj) (.lived event) after
        (.alive moved (event.adjust table semadj))
  | died (client : NestedClient K T R) (semadj : SemaphoreName → Int) :
      Moves shared (.alive client semadj) .died (shared.undo semadj) .dead

/-- A dead process as a client: it has nothing to do any more. -/
def client : Mortal K T R → NestedClient K T R
  | alive client _ => client
  | dead => { program := fun _ => none, replies := [], stage := .outside .idle }

variable {table codec indexSemId} {mortal moved : Mortal K T R} {shared after : NestedShared B}
  {event : NestedEvent K T R}

/-- `semadj` is 1 for the semaphores that the process holds. -/
def Adjusted (table : Table K B) : Mortal K T R → Prop
  | alive client semadj => ∀ name, (client.stage.Holds table name → semadj name = 1) ∧
      (¬ client.stage.Holds table name → semadj name = 0)
  | dead => True

theorem Adjusted.step (adjusted : mortal.Adjusted table)
    (moves : Moves table codec indexSemId shared mortal (.lived event) after moved) :
    moved.Adjusted table := by
  cases moves with
  | @lived client next event after semadj computes =>
    have books := (NestedClient.next_effect computes).balanced
    intro name
    have before := adjusted name
    simp only [NestedEvent.adjust]
    by_cases taken : event.takes table = some name
    · obtain ⟨notGiven, free, held⟩ := books.taken name taken
      rw [if_pos taken, if_neg notGiven, before.2 free]
      exact ⟨fun _ => rfl, fun free => absurd held free⟩
    · by_cases given : event.gives = some name
      · obtain ⟨_, held, free⟩ := books.given name given
        rw [if_neg taken, if_pos given, before.1 held]
        exact ⟨fun held => absurd held free, fun _ => rfl⟩
      · rw [if_neg taken, if_neg given, books.kept name taken given]
        simpa using before

omit [DecidableEq K] [TableRecord T K] in
/-- A dead process has given back what it held, and nothing else. -/
theorem Adjusted.undo (shared : NestedShared B) {client : NestedClient K T R}
    {semadj : SemaphoreName → Int}
    (adjusted : (Mortal.alive client semadj).Adjusted table) :
    ((client.stage.phase.holding table = none ∧
        (shared.undo semadj).semaphores = shared.semaphores) ∨
      ∃ x, client.stage.phase.holding table = some x ∧
        (shared.undo semadj).semaphores = shared.semaphores.unlock x) ∧
    ((client.stage.holdingIndex ≠ some 0 ∧
        (shared.undo semadj).indexSemaphores = shared.indexSemaphores) ∨
      (client.stage.holdingIndex = some 0 ∧
        (shared.undo semadj).indexSemaphores = shared.indexSemaphores.unlock 0)) := by
  constructor
  · cases held : client.stage.phase.holding table with
    | none =>
      refine .inl ⟨rfl, funext fun semNum => ?_⟩
      have free := (adjusted (.table semNum)).2 (by simp [Stage.Holds, held])
      simp [NestedShared.undo, free]
    | some x =>
      refine .inr ⟨x, rfl, funext fun semNum => ?_⟩
      by_cases same : semNum = x
      · subst same
        have own := (adjusted (.table semNum)).1 held
        simp only [NestedShared.undo, own, Semaphores.unlock, Function.update_self]
        omega
      · have free := (adjusted (.table semNum)).2 (by simp [Stage.Holds, held, Ne.symm same])
        simp [NestedShared.undo, free, Semaphores.unlock, same]
  · by_cases held : client.stage.holdingIndex = some 0
    · refine .inr ⟨held, ?_⟩
      have own := (adjusted .index).1 held
      simp only [NestedShared.undo, own, Semaphores.unlock]
      congr 1
    · refine .inl ⟨held, ?_⟩
      have free := (adjusted .index).2 held
      simp [NestedShared.undo, free]

end Mortal

section Runs
variable [DecidableEq K] [TableRecord T K] [DecidableEq ι] {table : Table K B}
  {codec : Bincode T} {indexSemId : Nat}

/-! ### What the deaths leave intact -/

theorem Nested.step {config last : Config ι (NestedShared B) (NestedClient K T R)}
    {label : ι × NestedEvent K T R} (nested : Nested table config)
    (stepped : NestedClient.Steps table codec indexSemId config label last) :
    Nested table last := by
  have atomic := NestedClient.run_atomicIndex (.next stepped (.refl _))
  refine ⟨?_, ?_, nested.owned.step stepped⟩
  · refine atomic.invariant (P := fun config =>
      table.primaryKeys.Responsive config.shared.memory.index) ?_ nested.responsive
    rintro config label after responsive ⟨moves⟩
    exact moves.responsive responsive
  · exact atomic.invariant (fun exclusive stepped => exclusive.step stepped) nested.exclusive

omit [DecidableEq K] [TableRecord T K] in
/-- The semaphores of a process that dies are free for the others. -/
theorem Nested.died {config : Config ι (NestedShared B) (NestedClient K T R)}
    (nested : Nested table config) {c : ι} {semadj : SemaphoreName → Int}
    (adjusted : (Mortal.alive (config.client c) semadj).Adjusted table) :
    Nested table (config.moved c (config.shared.undo semadj) Mortal.dead.client) := by
  obtain ⟨semaphores, indexSemaphores⟩ := adjusted.undo config.shared
  refine ⟨nested.responsive, ?_, ?_⟩
  · have exclusive := nested.exclusive
    rw [atomicIndex, Config.view_moved]
    unfold Exclusive at exclusive ⊢
    rw [Config.moved_comp, Config.moved_shared]
    change Ownership.Exclusive _ (config.shared.undo semadj).semaphores
      (Function.update (fun d => (config.client d).stage.phase.holding table) c none)
    rcases semaphores with ⟨nothing, same⟩ | ⟨x, held, released⟩
    · rw [same, Function.update_eq_self_iff.mpr nothing.symm]
      exact exclusive
    · rw [released]
      exact exclusive.release held
  · have owned := nested.owned
    unfold IndexOwned at owned ⊢
    rw [config.moved_comp c _ _ (fun client => client.stage.holdingIndex), Config.moved_shared]
    change Ownership.Exclusive 1 (config.shared.undo semadj).indexSemaphores
      (Function.update (fun d => (config.client d).stage.holdingIndex) c none)
    rcases indexSemaphores with ⟨nothing, same⟩ | ⟨held, released⟩
    · have idle : (config.client c).stage.holdingIndex = none := by
        by_contra other
        obtain ⟨x, held⟩ := Option.ne_none_iff_exists'.mp other
        have zero := owned.bounded c x held
        exact nothing (by rw [held, Nat.lt_one_iff.mp zero])
      rw [same, Function.update_eq_self_iff.mpr idle.symm]
      exact owned
    · rw [released]
      exact owned.release held

namespace Mortal
variable {calls : List (Operation K T R)} {mortal moved : Mortal K T R}
  {shared after : NestedShared B} {event : MortalEvent K T R}

/-- The steps that are left, at most; a living process can still die. -/
def remaining (calls : List (Operation K T R)) : Mortal K T R → Nat
  | alive client _ => client.remaining calls + 1
  | dead => 0

/-- While it lives, the process makes these calls. -/
def Makes (calls : List (Operation K T R)) : Mortal K T R → Prop
  | alive client _ => client.Makes calls
  | dead => True

theorem Makes.step (makes : mortal.Makes calls)
    (moves : Moves table codec indexSemId shared mortal event after moved) :
    moved.Makes calls ∧ moved.remaining calls < mortal.remaining calls := by
  cases moves with
  | lived computes =>
    have makes : NestedClient.Makes calls _ := makes
    obtain ⟨kept, lower⟩ := makes.step computes
    exact ⟨kept, Nat.succ_lt_succ lower⟩
  | died client semadj => exact ⟨trivial, Nat.succ_pos _⟩

end Mortal

/-- What holds in every state that the processes reach. -/
structure Surviving (table : Table K B) (calls : ι → List (Operation K T R))
    (config : Config ι (NestedShared B) (Mortal K T R)) : Prop where
  nested : Nested table (config.map Mortal.client)
  adjusted : ∀ c, (config.client c).Adjusted table
  makes : ∀ c, (config.client c).Makes (calls c)

namespace Surviving
variable {calls : ι → List (Operation K T R)}
  {config last : Config ι (NestedShared B) (Mortal K T R)} {label : ι × MortalEvent K T R}

theorem step (surviving : Surviving table calls config)
    (stepped : Step (Mortal.Moves table codec indexSemId) config label last) :
    Surviving table calls last := by
  obtain ⟨nested, adjusted, makes⟩ := surviving
  obtain ⟨moves⟩ := stepped
  rename_i c event shared own
  refine ⟨?_, Config.moved_forall (P := fun _ (mortal : Mortal K T R) => mortal.Adjusted table)
      config c shared own ?_ (fun d _ => adjusted d),
    Config.moved_forall (P := fun d (mortal : Mortal K T R) => mortal.Makes (calls d))
      config c shared own ((makes c).step moves).1 (fun d _ => makes d)⟩
  · rw [Config.map_moved]
    have adjusted := adjusted c
    generalize before : config.client c = mortal at moves adjusted
    have client : (config.map Mortal.client).client c = mortal.client :=
      congrArg Mortal.client before
    cases moves with
    | @lived client moved event _ semadj computes =>
      rw [Mortal.client] at client
      rw [← client] at computes
      exact nested.step (.move computes)
    | died client semadj =>
      rw [Mortal.client] at client
      refine nested.died ?_
      rwa [client]
  · generalize before : config.client c = mortal at moves
    cases moves with
    | @lived client moved event _ semadj computes =>
      have adjusted := adjusted c
      rw [before] at adjusted
      exact adjusted.step (.lived computes)
    | died client semadj => trivial

theorem lowers [Fintype ι] (surviving : Surviving table calls config)
    (stepped : Step (Mortal.Moves table codec indexSemId) config label last) :
    ∑ c, (last.client c).remaining (calls c) < ∑ c, (config.client c).remaining (calls c) := by
  obtain ⟨moves⟩ := stepped
  rename_i c event shared own
  have lower := ((surviving.makes c).step moves).2
  apply Finset.sum_lt_sum
  · intro d _
    by_cases same : d = c
    · subst same
      rw [Config.moved_self]
      exact Nat.le_of_lt lower
    · rw [Config.moved_other _ _ _ _ same]
  · exact ⟨c, Finset.mem_univ c, by rwa [Config.moved_self]⟩

/-- Where no process can go on, those that live have finished. -/
theorem finished (surviving : Surviving table calls config)
    (stuck : ∀ c event next,
      ¬ Step (Mortal.Moves table codec indexSemId) config (c, .lived event) next)
    {c : ι} {client : NestedClient K T R} {semadj : SemaphoreName → Int}
    (alive : config.client c = .alive client semadj) : client.Finished := by
  by_contra unfinished
  have same : (config.map Mortal.client).client c = client := congrArg Mortal.client alive
  rw [← same] at unfinished
  have moved : CanStep table codec indexSemId (config.map Mortal.client) :=
    surviving.nested.canStep unfinished
  obtain ⟨⟨d, event⟩, next, stepped⟩ := moved
  obtain ⟨moves⟩ := stepped
  rename_i shared own
  cases before : config.client d with
  | alive client' semadj' =>
    rw [show (config.map Mortal.client).client d = client' from congrArg Mortal.client before]
      at moves
    have lived : Mortal.Moves table codec indexSemId config.shared (config.client d) (.lived event)
        shared (.alive own (event.adjust table semadj')) := before ▸ .lived moves
    exact stuck d event _ (.move lived)
  | dead =>
    rw [show (config.map Mortal.client).client d = Mortal.dead.client from
      congrArg Mortal.client before] at moves
    cases moves

end Surviving

/-- Processes between two calls that have taken no semaphore. -/
def mortalStart (memory : TableMemory B) (calls : ι → List (Operation K T R)) :
    Config ι (NestedShared B) (Mortal K T R) :=
  (nestedStart memory (fun c replies => (calls c)[replies.length]?)).map
    (fun client => .alive client (fun _ => 0))

theorem mortalStart_surviving [Inhabited K] (layout : NodeLayout K B) (hasher : K → Nat)
    (codec : Bincode T) (semId capacity recordSize : Nat) (data : Nat → Slot UInt8)
    (nodes : Nat → Slot B) (calls : ι → List (Operation K T R)) :
    Surviving (Table.handle layout hasher semId capacity) calls
      (mortalStart (Table.createWithSize layout hasher semId capacity recordSize data nodes).2
        calls) where
  nested := Nested.of_run (show Run (NestedClient.Steps
    (Table.handle layout hasher semId capacity) codec 0) _ [] _ from .refl _)
  adjusted _ name := by cases name <;> exact ⟨nofun, fun _ => rfl⟩
  makes c := nestedStart_makes _ calls c

/-- Clients that are processes. -/
def processes (config : Config ι (NestedShared B) (NestedClient K T R))
    (semadj : ι → SemaphoreName → Int) : Config ι (NestedShared B) (Mortal K T R) :=
  ⟨config.shared, fun c => .alive (config.client c) (semadj c)⟩

/-- As long as nobody dies the processes run as clients do. -/
theorem processes_run {config last : Config ι (NestedShared B) (NestedClient K T R)}
    {trace : List (ι × NestedEvent K T R)}
    (run : Run (NestedClient.Steps table codec indexSemId) config trace last)
    (semadj : ι → SemaphoreName → Int) :
    ∃ semadj', Run (Step (Mortal.Moves table codec indexSemId)) (processes config semadj)
      (trace.map (fun (c, event) => (c, .lived event))) (processes last semadj') := by
  induction run generalizing semadj with
  | refl => exact ⟨semadj, .refl _⟩
  | @next config label middle rest last head tail ih =>
    obtain ⟨moves⟩ := head
    rename_i c event shared own
    let adjusted := event.adjust table (semadj c)
    obtain ⟨semadj', run⟩ := ih (Function.update semadj c adjusted)
    have same : processes (config.moved c shared own) (Function.update semadj c adjusted) =
        (processes config semadj).moved c shared (.alive own adjusted) := by
      simp only [processes, Config.moved, Config.mk.injEq, true_and]
      funext d
      by_cases mine : d = c
      · subst mine
        simp
      · simp [mine]
    rw [same] at run
    exact ⟨semadj', .next (.move (.lived moves)) run⟩

/-- Any processes may die at any moment: a semaphore has the value one less the living
processes that hold it, no schedule runs forever, and where no process can go on those
that live have all their answers. -/
theorem deaths_never_block [Inhabited K] [Fintype ι] (layout : NodeLayout K B) (hasher : K → Nat)
    (semId indexSemId : Nat) (codec : Bincode T) (capacity recordSize : Nat)
    (data : Nat → Slot UInt8) (nodes : Nat → Slot B) (calls : ι → List (Operation K T R))
    (trace : List (ι × MortalEvent K T R)) (last : Config ι (NestedShared B) (Mortal K T R))
    (run : Run (Step (Mortal.Moves (Table.handle layout hasher semId capacity) codec indexSemId))
      (mortalStart (Table.createWithSize layout hasher semId capacity recordSize data nodes).2
        calls) trace last) :
    (∀ name : SemaphoreName, name.Exists (Table.handle layout hasher semId capacity) →
      (last.shared.value name : ENat) +
        {c | (last.client c).client.stage.Holds (Table.handle layout hasher semId capacity)
          name}.encard = 1) ∧
    trace.length ≤ (∑ c, ((calls c).map Operation.steps).sum) + Fintype.card ι ∧
    ((∀ c event next, ¬ Step (Mortal.Moves (Table.handle layout hasher semId capacity) codec
        indexSemId) last (c, .lived event) next) →
      ∀ c client semadj, last.client c = .alive client semadj →
        client.Finished ∧ client.replies.length = (calls c).length) := by
  have start := mortalStart_surviving layout hasher codec semId capacity recordSize data nodes calls
  have surviving := run.invariant (fun surviving stepped => surviving.step stepped) start
  refine ⟨fun name valid => ?_, ?_, fun stuck c client semadj alive => ?_⟩
  · cases name with
    | table semNum => exact surviving.nested.exclusive.value_add_holders valid
    | index => exact surviving.nested.owned.value_add_holders Nat.zero_lt_one
  · have bounded := run.length_add_weight_le
      (fun config => ∑ c, (config.client c).remaining (calls c))
      (fun surviving stepped => surviving.step stepped)
      (fun surviving stepped => surviving.lowers stepped) start
    have whole : ∀ c, ((mortalStart (Table.createWithSize layout hasher semId capacity recordSize
        data nodes).2 calls).client c).remaining (calls c) =
        ((calls c).map Operation.steps).sum + 1 := fun c => congrArg (· + 1) (Nat.zero_add _)
    simp only [whole, Finset.sum_add_distrib, ← Finset.card_eq_sum_ones,
      Finset.card_univ] at bounded
    omega
  · have finished := surviving.finished stuck alive
    have makes := surviving.makes c
    rw [alive] at makes
    exact ⟨finished, NestedClient.Makes.answered makes finished⟩

end Runs

/-- The inserting process dies with both semaphores in its hands. -/
theorem deaths_never_block_sample :
    ∃ (trace : List (Bool × MortalEvent UInt8 (UInt8 × UInt8) Unit))
      (last : Config Bool (NestedShared (Node UInt8)) (Mortal UInt8 (UInt8 × UInt8) Unit)),
      (false, .died) ∈ trace ∧ trace.length ≤ 20 ∧
      (last.shared.value (.table twoRecords.semaphores.tableNumber) : ENat) +
        {c | (last.client c).client.stage.Holds twoRecords
          (.table twoRecords.semaphores.tableNumber)}.encard = 1 := by
  obtain ⟨trace, last, checked, run⟩ := exists_run (NestedClient.next twoRecords .twoBytes 1)
    (fun _ _ => true) nestedSample
    [true, false, false, false, false, false, false, false, false]
    (fun _ last => last.shared.semaphores twoRecords.semaphores.tableNumber == 0 &&
      last.shared.indexSemaphores 0 == 0) (by decide +kernel)
  obtain ⟨semadj, lived⟩ := processes_run run.unguarded (fun _ _ => 0)
  have dies := lived.trans (.next (.move (.died (last.client false) (semadj false))) (.refl _))
  obtain ⟨values, bounded, _⟩ := deaths_never_block (.cell UInt8) UInt8.toNat 0 1 .twoBytes 2 2
    (fun _ => ⟨.free, 0, []⟩) (fun _ => ⟨.free, 0, []⟩)
    (fun c : Bool => if c then [.find 2] else [.insert (2, 5)]) _ _ dies
  have valid : twoRecords.semaphores.tableNumber < twoRecords.semaphores.stripes := by decide
  exact ⟨_, _, by simp, bounded.trans (by decide), values (.table _) valid⟩

end InMemoryTable
