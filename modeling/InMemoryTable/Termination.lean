import InMemoryTable.NestedLocks
import Mathlib.Algebra.Order.BigOperators.Group.Finset

/-! Clients that make finitely many calls: no schedule runs forever, and one that
cannot go on has answered every call. -/
namespace InMemoryTable
open Interleaving Transition

variable {K T R B ι : Type}

/-! ### How many steps a call takes at most -/

/-- The steps of `update_many` after a key, or of a return. -/
def After.weight : After K T R → Nat
  | .reply _ _ => 1
  | .many _ _ rest _ => 7 * rest.length + 1

/-- The steps that follow the release of the record's semaphore. -/
def Update.weight : Update K T R → Nat
  | .withLock _ _ => 1
  | .many _ _ _ rest _ => 7 * rest.length + 1

def Request.weight : Request K T R → Nat
  | .find _ => 5
  | .insert _ | .remove _ => 11
  | .update change => change.weight + 7

namespace Phase

/-- The steps until the client is idle again. A call of the index takes three:
its lock, its body and the release. -/
def weight : Phase K T R → Nat
  | idle => 0
  | lookup request => request.weight
  | findRead _ _ => 2
  | lock (.insert _) | lock (.remove _ _) => 8
  | lock (.update change _) => change.weight + 4
  | locked (.insert _) | locked (.remove _ _) => 7
  | locked (.update change _) => change.weight + 3
  | insertInside _ _ | removeInside _ _ => 6
  | insertIndex _ _ | removeIndex _ _ => 5
  | updateWrite change _ _ => change.weight + 2
  | unlock _ after => after.weight + 1
  | reply _ _ => 1

theorem weight_after (after : After K T R) : after.phase.weight = after.weight := by
  cases after with
  | reply operation answer => rfl
  | many updater keys rest found =>
    cases rest with
    | nil => rfl
    | cons key rest =>
      simp only [After.phase, weight, Request.weight, Update.weight, After.weight, List.length_cons]
      omega

end Phase

namespace Operation

/-- The steps of a call that nobody interrupts, at most. -/
def steps : Operation K T R → Nat
  | find _ => 6
  | insert _ | remove _ => 12
  | updateWithLock _ _ => 9
  | updateMany keys _ => 7 * keys.length + 2

theorem weight_start (operation : Operation K T R) :
    operation.start.weight + 1 = operation.steps := by
  cases operation with
  | updateMany keys updater =>
    simp only [start, Phase.weight_after, After.weight, steps]
  | _ => rfl

end Operation

theorem Update.weight_skipped (change : Update K T R) : change.skipped.weight = change.weight := by
  cases change <;> rfl

theorem Update.weight_completed (change : Update K T R) (record : T) :
    (change.completed record).weight = change.weight := by
  cases change <;> rfl

theorem Update.weight_failed (change : Update K T R) (e : InMemoryTableError) :
    (change.failed e).weight ≤ change.weight := by
  cases change with
  | withLock key f => exact Nat.le_refl 1
  | many key updater keys rest found => simp only [failed, After.weight, weight]; omega

theorem Request.weight_found (request : Request K T R) (position : Option Nat) :
    (request.found position).weight + 3 ≤ request.weight := by
  cases request with
  | update change =>
    cases position with
    | none =>
      simp only [found, Phase.weight_after, Update.weight_skipped, weight]
      omega
    | some index => exact Nat.le_refl _
  | _ => cases position <;> simp [found, Phase.weight, weight]

variable [DecidableEq K] [TableRecord T K] {table : Table K B} {codec : Bincode T}
  {calls : Operation K T R → Prop} {phase next : Phase K T R} {event : Event K T R}

/-- Every step inside a call uses up its share. -/
theorem Effect.weight {shared after : Shared B}
    (effect : Effect table codec calls shared phase event after next) (busy : phase ≠ .idle) :
    next.weight + (if phase.callsIndex then 3 else 1) ≤ phase.weight := by
  cases effect with
  | called => exact absurd rfl busy
  | searched => exact Request.weight_found _ _
  | @refused task e refused =>
    rw [Phase.weight_after]
    cases task with
    | update change index =>
      have lower := change.weight_failed e
      change (change.failed e).weight + 1 ≤ change.weight + 4
      omega
    | _ => simp [Task.failed, After.weight, Phase.weight, Phase.callsIndex]
  | @locked task => cases task <;> exact Nat.le_refl _
  | @unread change index e failed =>
    have lower := change.weight_failed e
    change (change.failed e).weight + 1 + 1 ≤ change.weight + 3
    omega
  | @unwritten change index record e memory failed =>
    have lower := change.weight_failed e
    change (change.failed e).weight + 1 + 1 ≤ change.weight + 2
    omega
  | @written change index record memory wrote =>
    have same := change.weight_completed record
    change (change.completed record).weight + 1 + 1 ≤ change.weight + 2
    omega
  | @unlocked semNum after =>
    rw [Phase.weight_after]
    exact Nat.le_refl _
  | _ => simp [Phase.weight, Phase.callsIndex, After.weight, Task.failed]

omit [DecidableEq K] [TableRecord T K] in
theorem After.phase_ne_idle (after : After K T R) : after.phase ≠ .idle := by
  cases after with
  | reply operation answer => nofun
  | many updater keys rest found => cases rest <;> nofun

omit [DecidableEq K] [TableRecord T K] in
theorem Operation.start_ne_idle (operation : Operation K T R) : operation.start ≠ .idle := by
  cases operation with
  | updateMany keys updater => exact After.phase_ne_idle _
  | _ => nofun

omit [DecidableEq K] [TableRecord T K] in
theorem Request.found_ne_idle (request : Request K T R) (position : Option Nat) :
    request.found position ≠ .idle := by
  cases request with
  | update change =>
    cases position with
    | none => exact After.phase_ne_idle _
    | some index => nofun
  | _ => cases position <;> nofun

/-- Only a return makes a client idle. -/
theorem Effect.ne_idle {shared after : Shared B}
    (effect : Effect table codec calls shared phase event after next)
    (inside : ∀ operation answer, phase ≠ .reply operation answer) : next ≠ .idle := by
  cases effect with
  | called => exact Operation.start_ne_idle _
  | replied => exact absurd rfl (inside _ _)
  | searched => exact Request.found_ne_idle _ _
  | refused => exact After.phase_ne_idle _
  | unlocked => exact After.phase_ne_idle _
  | _ => nofun

/-! ### What is left of a client's program -/

namespace Stage

omit [DecidableEq K] [TableRecord T K]

def weight : Stage K T R → Nat
  | outside phase => phase.weight
  | body _ phase _ => phase.weight - 1
  | drop _ phase => phase.weight + 1

/-- Inside a call: neither idle nor about to return. -/
def Busy : Stage K T R → Prop
  | outside phase => phase ≠ .idle ∧ ∀ operation answer, phase ≠ .reply operation answer
  | body _ _ _ => True
  | drop _ phase => phase ≠ .idle

def isIdle : Stage K T R → Bool
  | outside phase => phase.isIdle
  | _ => false

theorem busy_of_ne {stage : Stage K T R} (settled : ∀ lock, stage ≠ .drop lock .idle)
    (idle : stage ≠ .outside .idle)
    (inside : ∀ operation answer, stage ≠ .outside (.reply operation answer)) : stage.Busy := by
  cases stage with
  | outside phase =>
    refine ⟨?_, ?_⟩
    · rintro rfl
      exact idle rfl
    · rintro operation answer rfl
      exact inside operation answer rfl
  | body lock phase indexed => trivial
  | drop lock phase =>
    rintro rfl
    exact settled lock rfl

theorem Busy.not_isIdle {stage : Stage K T R} (busy : stage.Busy) : stage.isIdle = false := by
  cases stage with
  | outside phase =>
    rw [isIdle, ← Bool.not_eq_true, Phase.isIdle_iff]
    exact busy.1
  | body lock phase indexed => rfl
  | drop lock phase => rfl

theorem isIdle_outside {phase : Phase K T R} (busy : phase ≠ .idle) :
    (Stage.outside phase).isIdle = false := by
  rw [isIdle, ← Bool.not_eq_true, Phase.isIdle_iff]
  exact busy

end Stage

omit [DecidableEq K] [TableRecord T K] in
theorem Phase.weight_of_callsIndex (indexed : phase.callsIndex = true) : 5 ≤ phase.weight := by
  cases phase with
  | lookup request =>
    cases request with
    | update change => simp only [weight, Request.weight]; omega
    | _ => simp [weight, Request.weight]
  | insertIndex record index => exact Nat.le_refl 5
  | removeIndex key index => exact Nat.le_refl 5
  | _ => cases indexed

variable {indexSemId : Nat} {shared after : NestedShared B} {stage nextStage : Stage K T R}
  {nested : NestedEvent K T R}

theorem NestedEffect.lowers
    (effect : NestedEffect table codec shared stage nested after nextStage) (busy : stage.Busy) :
    nextStage.weight < stage.weight ∧ nextStage.isIdle = false ∧
      ∀ lock, nextStage ≠ .drop lock .idle := by
  cases effect with
  | @locked phase indexed positive =>
    have share := Phase.weight_of_callsIndex indexed
    refine ⟨?_, rfl, by rintro _ ⟨⟩⟩
    simp only [Stage.weight]
    omega
  | @moved phase next event after moves =>
    have lower := moves.weight busy.1
    refine ⟨?_, Stage.isIdle_outside (moves.ne_idle busy.2), by rintro _ ⟨⟩⟩
    simp only [Stage.weight]
    split at lower <;> omega
  | @ran lock phase next indexed event after moves =>
    have lower := moves.weight (by rintro rfl; cases indexed)
    rw [if_pos indexed] at lower
    refine ⟨?_, rfl, fun other same => ?_⟩
    · simp only [Stage.weight]
      omega
    · cases same
      exact moves.ne_idle (by rintro operation answer rfl; cases indexed) rfl
  | dropped => exact ⟨Nat.lt_succ_self _, Stage.isIdle_outside busy, by rintro _ ⟨⟩⟩
  | unlocked => exact ⟨Nat.lt_succ_self _, Stage.isIdle_outside busy, by rintro _ ⟨⟩⟩

namespace NestedClient

/-- The calls made so far, the current one included. -/
def begun (client : NestedClient K T R) : Nat :=
  client.replies.length + if client.stage.isIdle then 0 else 1

omit [DecidableEq K] [TableRecord T K] in
theorem begun_of_idle {client : NestedClient K T R} (idle : client.stage.isIdle = true) :
    client.begun = client.replies.length := by
  simp only [begun, idle, if_true, Nat.add_zero]

omit [DecidableEq K] [TableRecord T K] in
theorem begun_of_inside {client : NestedClient K T R} (inside : client.stage.isIdle = false) :
    client.begun = client.replies.length + 1 := by
  simp only [begun, inside, Bool.false_eq_true, if_false]

/-- The client makes these calls one after the other. -/
structure Makes (calls : List (Operation K T R)) (client : NestedClient K T R) : Prop where
  program : client.program = fun replies => calls[replies.length]?
  bounded : client.begun ≤ calls.length
  settled : ∀ lock, client.stage ≠ .drop lock .idle

/-- The steps that are left, at most. -/
def remaining (calls : List (Operation K T R)) (client : NestedClient K T R) : Nat :=
  client.stage.weight + ((calls.drop client.begun).map Operation.steps).sum

variable {client moved : NestedClient K T R} {calls : List (Operation K T R)}

theorem Makes.step (makes : client.Makes calls)
    (stepped : Computes (NestedClient.next table codec indexSemId) shared client nested after
      moved) :
    moved.Makes calls ∧ moved.remaining calls < client.remaining calls := by
  unfold Computes NestedClient.next at stepped
  split at stepped
  · rename_i idle
    obtain ⟨operation, chosen, same⟩ := Option.map_eq_some_iff.mp stepped
    cases same
    rw [makes.program] at chosen
    obtain ⟨bound, chosen⟩ := List.getElem?_eq_some_iff.mp chosen
    have before : client.begun = client.replies.length := begun_of_idle (by rw [idle]; rfl)
    have behind : begun { client with stage := .outside operation.start } =
        client.replies.length + 1 :=
      begun_of_inside (Stage.isIdle_outside operation.start_ne_idle)
    refine ⟨⟨makes.program, ?_, nofun⟩, ?_⟩
    · rw [behind]
      exact bound
    · have weight := operation.weight_start
      simp only [remaining, behind, before, idle]
      rw [List.drop_eq_getElem_cons bound, chosen, List.map_cons, List.sum_cons]
      change operation.start.weight + _ < 0 + _
      omega
  · rename_i operation answer replying
    cases stepped
    have before : client.begun = client.replies.length + 1 :=
      begun_of_inside (by rw [replying]; rfl)
    have behind : begun { client with replies := client.replies ++ [answer], stage := .outside .idle } =
        client.begun := by
      rw [before, begun_of_idle rfl]
      exact List.length_append
    refine ⟨⟨makes.program, ?_, nofun⟩, ?_⟩
    · rw [behind]
      exact makes.bounded
    · simp only [remaining, behind, replying]
      change 0 + _ < 1 + _
      omega
  · rename_i stage idle inside
    obtain ⟨⟨event, shared, stage⟩, advanced, same⟩ := Option.map_eq_some_iff.mp stepped
    cases same
    have busy := Stage.busy_of_ne makes.settled idle inside
    obtain ⟨lower, outside, settled⟩ := (Stage.advance_effect advanced).lowers busy
    have behind : begun { client with stage } = client.begun :=
      (begun_of_inside outside).trans (begun_of_inside busy.not_isIdle).symm
    refine ⟨⟨makes.program, ?_, settled⟩, ?_⟩
    · rw [behind]
      exact makes.bounded
    · simp only [remaining, behind]
      omega

omit [DecidableEq K] [TableRecord T K] in
/-- A client that has finished has its answers. -/
theorem Makes.answered (makes : client.Makes calls) (finished : client.Finished) :
    client.replies.length = calls.length := by
  obtain ⟨idle, stops⟩ := finished
  rw [makes.program] at stops
  have all := List.getElem?_eq_none_iff.mp stops
  have bounded := makes.bounded
  rw [begun_of_idle (by rw [idle]; rfl)] at bounded
  omega

end NestedClient

/-! ### Every schedule ends -/

variable [DecidableEq ι] {config last : Config ι (NestedShared B) (NestedClient K T R)}
  {label : ι × NestedEvent K T R} {calls : ι → List (Operation K T R)}

theorem NestedClient.Steps.lowers [Fintype ι]
    (makes : ∀ c, (config.client c).Makes (calls c))
    (stepped : NestedClient.Steps table codec indexSemId config label last) :
    (∀ c, (last.client c).Makes (calls c)) ∧
      ∑ c, (last.client c).remaining (calls c) < ∑ c, (config.client c).remaining (calls c) := by
  obtain ⟨moves⟩ := stepped
  rename_i c event shared own
  obtain ⟨kept, lower⟩ := (makes c).step moves
  refine ⟨Config.moved_forall (P := fun d (client : NestedClient K T R) => client.Makes (calls d))
    _ _ _ _ kept (fun d _ => makes d), ?_⟩
  apply Finset.sum_lt_sum
  · intro d _
    by_cases same : d = c
    · subst same
      rw [Config.moved_self]
      exact Nat.le_of_lt lower
    · rw [Config.moved_other _ _ _ _ same]
  · exact ⟨c, Finset.mem_univ c, by rwa [Config.moved_self]⟩

/-- Clients of a new table stay able to move. -/
theorem Nested.of_run [Inhabited K] {layout : NodeLayout K B} {hasher : K → Nat}
    {semId capacity recordSize : Nat} {data : Nat → Slot UInt8} {nodes : Nat → Slot B}
    {programs : ι → List (Reply T R) → Option (Operation K T R)}
    {trace : List (ι × NestedEvent K T R)}
    (run : Run (NestedClient.Steps (Table.handle layout hasher semId capacity) codec indexSemId)
      (nestedStart (Table.createWithSize layout hasher semId capacity recordSize data nodes).2
        programs) trace last) :
    Nested (Table.handle layout hasher semId capacity) last := by
  have atomic := NestedClient.run_atomicIndex run
  refine ⟨?_, ?_, ?_⟩
  · refine atomic.invariant (P := fun config => (Index.handle layout hasher capacity).Responsive
      config.shared.memory.index) ?_ (Index.handle_responsive layout hasher capacity nodes)
    rintro config label after responsive ⟨moves⟩
    exact moves.responsive responsive
  · exact atomic.invariant (fun exclusive stepped => exclusive.step stepped)
      (Quiet.exclusive ⟨fun _ _ => rfl, fun _ => rfl⟩)
  · exact run.invariant (fun owned stepped => owned.step stepped)
      (.initial (fun _ _ => rfl) (fun _ => rfl))

omit [DecidableEq K] [TableRecord T K] [DecidableEq ι] in
theorem nestedStart_makes (memory : TableMemory B) (calls : ι → List (Operation K T R)) (c : ι) :
    ((nestedStart memory (fun c replies => (calls c)[replies.length]?)).client c).Makes
      (calls c) where
  program := rfl
  bounded := Nat.zero_le _
  settled := nofun

/-- Finitely many clients of a new table, with a list of calls each: every schedule
ends after the steps that the calls take at most, and where nobody can go on
every call has been answered. -/
theorem calls_return [Inhabited K] [Fintype ι] (layout : NodeLayout K B) (hasher : K → Nat)
    (semId indexSemId : Nat) (codec : Bincode T) (capacity recordSize : Nat)
    (data : Nat → Slot UInt8) (nodes : Nat → Slot B) (calls : ι → List (Operation K T R))
    (trace : List (ι × NestedEvent K T R))
    (last : Config ι (NestedShared B) (NestedClient K T R))
    (run : Run (NestedClient.Steps (Table.handle layout hasher semId capacity) codec indexSemId)
      (nestedStart (Table.createWithSize layout hasher semId capacity recordSize data nodes).2
        (fun c replies => (calls c)[replies.length]?)) trace last) :
    trace.length ≤ ∑ c, ((calls c).map Operation.steps).sum ∧
    ((∀ label next, ¬ NestedClient.Steps (Table.handle layout hasher semId capacity) codec
        indexSemId last label next) →
      ∀ c, (last.client c).Finished ∧ (last.client c).replies.length = (calls c).length) := by
  have start := nestedStart_makes
    (Table.createWithSize layout hasher semId capacity recordSize data nodes).2 calls
  have makes := run.invariant (P := fun config => ∀ c, (config.client c).Makes (calls c))
    (fun makes stepped => (NestedClient.Steps.lowers makes stepped).1) start
  constructor
  · have bounded := run.length_add_weight_le
      (P := fun config => ∀ c, (config.client c).Makes (calls c))
      (fun config => ∑ c, (config.client c).remaining (calls c))
      (fun makes stepped => (NestedClient.Steps.lowers makes stepped).1)
      (fun makes stepped => (NestedClient.Steps.lowers makes stepped).2) start
    have whole : ∀ c, ((nestedStart (Table.createWithSize layout hasher semId capacity recordSize
        data nodes).2 (fun c replies => (calls c)[replies.length]?)).client c).remaining (calls c) =
        ((calls c).map Operation.steps).sum := fun c => Nat.zero_add _
    simp only [whole] at bounded
    omega
  · intro stuck c
    have finished : (last.client c).Finished := by
      by_contra unfinished
      obtain ⟨label, next, stepped⟩ := (Nested.of_run run).canStep unfinished
      exact stuck label next stepped
    exact ⟨finished, (makes c).answered finished⟩

/-- An insertion and a search take at most 18 steps together, and here they do. -/
theorem calls_return_sample :
    ∃ trace last, Run (NestedClient.Steps twoRecords .twoBytes 1) nestedSample trace last ∧
      trace.length = 18 ∧ ∀ c, (last.client c).replies.length = 1 := by
  obtain ⟨trace, last, checked, run⟩ := exists_run (NestedClient.next twoRecords .twoBytes 1)
    (fun _ _ => true) nestedSample (List.replicate 12 false ++ List.replicate 6 true)
    (fun trace _ => trace.length == 18) (by decide +kernel)
  have length : trace.length = 18 := beq_iff_eq.mp checked
  have returns := fun trace last => @calls_return UInt8 (UInt8 × UInt8) Unit (Node UInt8) Bool _ _ _ _ _
    (.cell UInt8) UInt8.toNat 0 1 .twoBytes 2 2 (fun _ => ⟨.free, 0, []⟩) (fun _ => ⟨.free, 0, []⟩)
    (fun c => if c then [.find 2] else [.insert (2, 5)]) trace last
  have stuck : ∀ label next, ¬ NestedClient.Steps twoRecords .twoBytes 1 last label next := by
    intro label next stepped
    have longer := (returns (trace ++ [label]) next
      (run.unguarded.trans (.next stepped (.refl _)))).1
    rw [List.length_append, length, List.length_singleton] at longer
    exact absurd longer (by decide)
  refine ⟨trace, last, run.unguarded, length, fun c => ?_⟩
  have answered := ((returns trace last run.unguarded).2 stuck c).2
  cases c <;> exact answered

end InMemoryTable
