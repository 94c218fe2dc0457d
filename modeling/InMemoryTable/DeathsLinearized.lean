import InMemoryTable.Deaths
import InMemoryTable.Linearized

/-! Processes that search, insert and update one table, any of which may die between two
steps: what the others see is a map with atomic calls that has lost some slots. -/
namespace InMemoryTable
open Interleaving Transition Linearization

variable {K T R B ι : Type}

/-- A client all of whose calls satisfy `calls`, whatever the replies are. -/
def NestedClient.Calls (calls : Operation K T R → Prop) (client : NestedClient K T R) : Prop :=
  ∀ replies operation, client.program replies = some operation → calls operation

/-- What can be told of a step of a process. -/
def MortalEvent.sight : MortalEvent K T R → Option (Sight (Operation K T R) (Reply T R))
  | .lived event => (event.event.bind Event.shown).map .of
  | .died => some .died

/-- What the call of a living process has still to do. -/
def Mortal.place : Mortal K T R → Option (CallPlace K T R)
  | .alive client _ => some client.stage.phase.place
  | .dead => none

variable [DecidableEq K] [TableRecord T K] {table : Table K B} {codec : Bincode T}
  {indexSemId : Nat}

/-! ### The steps of a process whose calls are known -/

theorem Effect.allow {calls allowed : Operation K T R → Prop} {shared after : Shared B}
    {phase next : Phase K T R} {event : Event K T R}
    (effect : Effect table codec calls shared phase event after next)
    (called : ∀ operation, event = .called operation → allowed operation) :
    Effect table codec allowed shared phase event after next := by
  cases effect with
  | called => exact .called (called _ rfl)
  | _ => constructor <;> assumption

section Client
variable {calls : Operation K T R → Prop} {shared after : NestedShared B}
  {client moved : NestedClient K T R} {event : NestedEvent K T R}

/-- A client keeps its program, and calls what the program says. -/
theorem NestedClient.next_calls (program : client.Calls calls)
    (stepped : Computes (NestedClient.next table codec indexSemId) shared client event after
      moved) :
    moved.Calls calls ∧ ∀ operation, event = .moved (.called operation) → calls operation := by
  unfold Computes NestedClient.next at stepped
  split at stepped
  · obtain ⟨operation, chosen, same⟩ := Option.map_eq_some_iff.mp stepped
    cases same
    refine ⟨program, ?_⟩
    rintro _ ⟨⟩
    exact program _ _ chosen
  · cases stepped
    exact ⟨program, by rintro _ ⟨⟩⟩
  · rename_i idle _
    obtain ⟨⟨event, shared, stage⟩, advanced, same⟩ := Option.map_eq_some_iff.mp stepped
    cases same
    refine ⟨program, ?_⟩
    rintro operation rfl
    have effect := Stage.advance_effect advanced
    generalize client.stage = before at effect idle
    cases effect with
    | moved moves =>
      cases moves
      exact absurd rfl idle
    | @ran _ _ _ indexed _ _ moves =>
      cases moves
      cases indexed

/-- To an observer who takes index calls for atomic a step is one of a client, or none. -/
theorem NestedClient.next_seen (program : client.Calls calls)
    (stepped : Computes (NestedClient.next table codec indexSemId) shared client event after
      moved) :
    (event.event = none ∧ after.toShared = shared.toShared ∧
      moved.stage.phase = client.stage.phase) ∨
    ∃ happened, event = .moved happened ∧ Effect table codec calls shared.toShared
      client.stage.phase happened after.toShared moved.stage.phase := by
  obtain ⟨_, called⟩ := next_calls program stepped
  have effect := NestedClient.next_effect stepped
  generalize client.stage = before, moved.stage = behind at effect
  cases effect with
  | @moved _ _ happened _ moves =>
    exact .inr ⟨_, rfl, moves.allow fun operation same => called operation (same ▸ rfl)⟩
  | @ran _ _ _ _ happened _ moves =>
    exact .inr ⟨_, rfl, moves.allow fun operation same => called operation (same ▸ rfl)⟩
  | locked => exact .inl ⟨rfl, rfl, rfl⟩
  | dropped => exact .inl ⟨rfl, rfl, rfl⟩
  | unlocked => exact .inl ⟨rfl, rfl, rfl⟩

end Client

/-! ### All processes -/

section Runs
variable [DecidableEq ι] {capacity recordSize : Nat} {owner : K → ι}

/-- The phases of the processes, with index calls taken for atomic. -/
abbrev mortalPhases (config : Config ι (NestedShared B) (Mortal K T R)) : Phases ι K T R B :=
  config.view NestedShared.toShared (fun mortal => mortal.client.stage.phase)

/-- The locks are in order, and what the living have learned holds of the records. -/
structure Enduring (table : Table K B) (codec : Bincode T) (capacity recordSize : Nat)
    (owner : K → ι) (config : Config ι (NestedShared B) (Mortal K T R)) (stock : Stock K T) :
    Prop where
  nested : Nested table (config.map Mortal.client)
  adjusted : ∀ c, (config.client c).Adjusted table
  calls : ∀ c, (config.client c).client.Calls (Operation.Owned table owner c)
  linearizing : Linearizing table codec capacity recordSize owner (mortalPhases config) stock

namespace Enduring
variable {config : Config ι (NestedShared B) (Mortal K T R)} {stock : Stock K T} {c : ι}
  {shared : NestedShared B}

theorem lived (enduring : Enduring table codec capacity recordSize owner config stock)
    (serves : table.Serves capacity) {client moved : NestedClient K T R}
    {semadj : SemaphoreName → Int} {event : NestedEvent K T R}
    (alive : config.client c = .alive client semadj)
    (computes : Computes (NestedClient.next table codec indexSemId) config.shared client event
      shared moved) :
    ∃ later, Enduring table codec capacity recordSize owner
        (config.moved c shared (.alive moved (event.adjust table semadj))) later ∧
      (Stock.object codec capacity recordSize).toObject.Sees stock client.stage.phase.place
        (event.event.bind Event.shown) later moved.stage.phase.place := by
  have own : (config.client c).client = client := congrArg Mortal.client alive
  have program : client.Calls (Operation.Owned table owner c) := own ▸ enduring.calls c
  have adjusted : (Mortal.alive client semadj).Adjusted table := alive ▸ enduring.adjusted c
  have mapped : (config.map Mortal.client).client c = client := own
  have stepped : NestedClient.Steps table codec indexSemId (config.map Mortal.client) (c, event)
      ((config.map Mortal.client).moved c shared moved) := .move (mapped ▸ computes)
  obtain ⟨later, linearizing, sees⟩ : ∃ later,
      Linearizing table codec capacity recordSize owner
        ((mortalPhases config).moved c shared.toShared moved.stage.phase) later ∧
      (Stock.object codec capacity recordSize).toObject.Sees stock client.stage.phase.place
        (event.event.bind Event.shown) later moved.stage.phase.place := by
    have before : (mortalPhases config).client c = client.stage.phase :=
      congrArg (fun client => client.stage.phase) own
    obtain ⟨hidden, same, still⟩ | ⟨happened, rfl, effect⟩ :=
      NestedClient.next_seen program computes
    · refine ⟨stock, ?_, ?_⟩
      · rw [same, still, ← before, Config.moved, Function.update_eq_self]
        exact enduring.linearizing
      · rw [hidden, still]
        exact .nothing rfl rfl
    · rw [← before] at effect
      obtain ⟨later, linearizing, sees⟩ := enduring.linearizing.step serves effect
      rw [before] at sees
      exact ⟨_, linearizing, sees⟩
  refine ⟨later, ⟨?_, ?_, ?_, ?_⟩, sees⟩
  · rw [Config.map_moved]
    exact enduring.nested.step stepped
  · exact Config.moved_forall (P := fun _ (mortal : Mortal K T R) => mortal.Adjusted table)
      _ _ _ _ (adjusted.step (.lived computes)) (fun d _ => enduring.adjusted d)
  · exact Config.moved_forall
      (P := fun d (mortal : Mortal K T R) => mortal.client.Calls (Operation.Owned table owner d))
      _ _ _ _ (NestedClient.next_calls program computes).1 (fun d _ => enduring.calls d)
  · rw [mortalPhases, Config.view_moved]
    exact linearizing

theorem died (enduring : Enduring table codec capacity recordSize owner config stock)
    {client : NestedClient K T R} {semadj : SemaphoreName → Int}
    (alive : config.client c = .alive client semadj) :
    ∃ later, Enduring table codec capacity recordSize owner
        (config.moved c (config.shared.undo semadj) .dead) later ∧
      (Stock.object codec capacity recordSize).dies stock client.stage.phase.place later := by
  have own : (config.map Mortal.client).client c = client := congrArg Mortal.client alive
  have adjusted : (Mortal.alive client semadj).Adjusted table := alive ▸ enduring.adjusted c
  have nested := enduring.nested.died (own.symm ▸ adjusted)
  have exclusive : Exclusive table ((mortalPhases config).moved c
      (config.shared.undo semadj).toShared .idle) := by
    have exclusive := nested.exclusive
    rwa [atomicIndex, Config.view_moved] at exclusive
  obtain ⟨later, linearizing, dies⟩ := enduring.linearizing.died
    (config.shared.undo semadj).toShared rfl exclusive
  have before : (mortalPhases config).client c = client.stage.phase :=
    congrArg (fun client => client.stage.phase) own
  rw [before] at dies
  refine ⟨later, ⟨?_, ?_, ?_, ?_⟩, dies⟩
  · rw [Config.map_moved]
    exact nested
  · exact Config.moved_forall (P := fun _ (mortal : Mortal K T R) => mortal.Adjusted table)
      _ _ _ _ trivial (fun d _ => enduring.adjusted d)
  · exact Config.moved_forall
      (P := fun d (mortal : Mortal K T R) => mortal.client.Calls (Operation.Owned table owner d))
      _ _ _ _ (by rintro _ _ ⟨⟩) (fun d _ => enduring.calls d)
  · rw [mortalPhases, Config.view_moved]
    exact linearizing

theorem step (enduring : Enduring table codec capacity recordSize owner config stock)
    (serves : table.Serves capacity) {event : MortalEvent K T R} {own : Mortal K T R}
    (moves : Mortal.Moves table codec indexSemId config.shared (config.client c) event shared
      own) :
    ∃ later, Enduring table codec capacity recordSize owner (config.moved c shared own) later ∧
      (Stock.object codec capacity recordSize).Sees stock (config.client c).place event.sight
        later own.place := by
  generalize alive : config.client c = mortal at moves
  cases moves with
  | lived computes =>
    obtain ⟨later, enduring, sees⟩ := enduring.lived serves alive computes
    exact ⟨later, enduring, .lived sees⟩
  | died client semadj =>
    obtain ⟨later, enduring, dies⟩ := enduring.died alive
    exact ⟨later, enduring, .died dies⟩

end Enduring

/-- Each death loses one slot at most, and nothing else loses any. -/
theorem Stock.lost_card_le {config last : Config ι (Stock K T) (Option (CallPlace K T R))}
    {moments : List (ι × Option (Linearization.Moment (Operation K T R) (Reply T R)))}
    (run : Run (Step (Stock.object codec capacity recordSize).Moves) config moments last) :
    last.shared.lost.card ≤
      config.shared.lost.card + moments.countP (fun moment => moment.2.isNone) := by
  induction run with
  | refl => exact Nat.le_add_right _ _
  | @next config label middle rest last head tail ih =>
    obtain ⟨moves⟩ := head
    rw [List.countP_cons]
    simp only [Config.moved_shared] at ih
    generalize config.client _ = place at moves
    cases moves with
    | lived moves =>
      cases moves with
      | effect takes =>
        obtain ⟨_, _, _, rfl, _⟩ := takes
        exact ih
      | called => exact ih
      | replied => exact ih
    | died dies =>
      obtain rfl | ⟨_, index, _, _, _, _, rfl⟩ := dies
      · exact ih.trans (by omega)
      · have grown := Finset.card_insert_le index config.shared.lost
        simp only [Stock.lose] at ih
        simp only [Option.isNone_none, if_true]
        omega

/-- Linearizability with deaths: every interleaving of processes that do not remove, of
which no two insert the same key and any of which may die between two steps, is a run
of the map with atomic calls that shows the same calls, replies and deaths, and loses a
slot at most when an insertion dies. When no living process is inside a call the table
holds this map. -/
theorem deaths_linearizable [Inhabited K] (layout : NodeLayout K B) (hasher : K → Nat)
    (semId indexSemId : Nat) (codec : Bincode T) (capacity recordSize : Nat)
    (positive : 1 ≤ capacity) (fits : Slots.SizeFits tableHeaderSize capacity recordSize)
    (data : Nat → Slot UInt8) (nodes : Nat → Slot B) (owner : K → ι)
    (programs : ι → List (Reply T R) → Option (Operation K T R))
    (owned : ∀ c replies operation, programs c replies = some operation →
      operation.Owned (Table.handle layout hasher semId capacity) owner c)
    (trace : List (ι × MortalEvent K T R)) (last : Config ι (NestedShared B) (Mortal K T R))
    (run : Run (Step (Mortal.Moves (Table.handle layout hasher semId capacity) codec indexSemId))
      (processes (nestedStart
        (Table.createWithSize layout hasher semId capacity recordSize data nodes).2 programs)
        (fun _ _ => 0)) trace last) :
    ∃ moments later,
      Run (Step (Stock.object codec capacity recordSize).Moves) ⟨⟨∅, ∅⟩, fun _ => some .idle⟩
        moments ⟨later, fun c => (last.client c).place⟩ ∧
      visible FragileObject.told moments = visible MortalEvent.sight trace ∧
      later.lost.card ≤ moments.countP (fun moment => moment.2.isNone) ∧
      ((∀ c, (last.client c).client.stage.phase = .idle) →
        (Table.handle layout hasher semId capacity).Stocked codec capacity recordSize
          last.shared.memory later) := by
  have serves := Table.handle_serves layout hasher semId positive
  let start : Config ι (NestedShared B) (Mortal K T R) := processes (nestedStart
    (Table.createWithSize layout hasher semId capacity recordSize data nodes).2 programs)
    (fun _ _ => 0)
  have nested : Nested (Table.handle layout hasher semId capacity) (start.map Mortal.client) :=
    Nested.of_run (show Run (NestedClient.Steps (Table.handle layout hasher semId capacity) codec
      indexSemId) _ [] _ from .refl _)
  have empty : (Table.handle layout hasher semId capacity).Holds codec capacity recordSize
      start.shared.memory ∅ := Table.Holds.of_create layout hasher semId data nodes fits.stride
  have enduring : Enduring (Table.handle layout hasher semId capacity) codec capacity recordSize
      owner start ⟨∅, ∅⟩ := by
    refine ⟨nested, fun c name => ?_, owned, .of_idle nested.exclusive (fun _ => rfl) empty.stocked⟩
    refine ⟨fun held => ?_, fun _ => rfl⟩
    cases name <;> cases held
  obtain ⟨moments, later, run', same, enduring⟩ :=
    (Stock.object codec capacity recordSize).linearizes
      (Enduring (Table.handle layout hasher semId capacity) codec capacity recordSize owner)
      (fun enduring moves => enduring.step serves moves) run enduring
  have few := Stock.lost_card_le run'
  rw [Finset.card_empty, Nat.zero_add] at few
  exact ⟨moments, later, run', same, few, fun idle => enduring.linearizing.stocked idle⟩

end Runs

/-- Process `false` inserts a record that process `true` would look for. -/
def fragileStart :
    Config Bool (NestedShared (Node UInt8)) (NestedClient UInt8 (UInt8 × UInt8) Unit) :=
  nestedStart
    (Table.createWithSize (.cell UInt8) UInt8.toNat 0 2 2 (fun _ => ⟨.free, 0, []⟩)
      (fun _ => ⟨.free, 0, []⟩)).2
    (fun c replies => (if c then [.find 1] else [.insert (1, 7)])[replies.length]?)

/-- The inserting process dies when its record is stored and not linked: one of the two
slots is in use. -/
theorem deaths_linearizable_sample :
    ∃ (trace : List (Bool × MortalEvent UInt8 (UInt8 × UInt8) Unit))
      (last : Config Bool (NestedShared (Node UInt8)) (Mortal UInt8 (UInt8 × UInt8) Unit))
      (moments : List (Bool × Option (Linearization.Moment (Operation UInt8 (UInt8 × UInt8) Unit)
        (Reply (UInt8 × UInt8) Unit)))) (later : Stock UInt8 (UInt8 × UInt8)),
      Run (Step (Mortal.Moves twoRecords .twoBytes 1)) (processes fragileStart (fun _ _ => 0)) trace
        last ∧ (false, .died) ∈ trace ∧
      Run (Step (Stock.object .twoBytes 2 2).Moves) ⟨⟨∅, ∅⟩, fun _ => some .idle⟩ moments
        ⟨later, fun c => (last.client c).place⟩ ∧
      visible FragileObject.told moments = visible MortalEvent.sight trace ∧
      later.records.keys.card + later.lost.card = 1 := by
  obtain ⟨trace, last, checked, run⟩ := exists_run (NestedClient.next twoRecords .twoBytes 1)
    (fun _ _ => true) fragileStart (List.replicate 7 false)
    (fun _ last => last.shared.memory.slots.header.count == 1 &&
      (last.client true).stage.phase.isIdle) (by decide +kernel)
  simp only [Bool.and_eq_true, beq_iff_eq] at checked
  obtain ⟨stored, idle⟩ := checked
  obtain ⟨semadj, lived⟩ := processes_run run.unguarded (fun _ _ => 0)
  have dies := lived.trans (.next (.move (.died (last.client false) (semadj false))) (.refl _))
  obtain ⟨moments, later, run', same, _, stocked⟩ := deaths_linearizable (.cell UInt8) UInt8.toNat 0
    1 .twoBytes 2 2 (by decide) ⟨by decide, by decide⟩ _ _ sharingOwner _ (by
      intro c replies operation chosen
      cases c <;> cases List.mem_singleton.mp (List.mem_of_getElem? chosen)
      · exact ⟨rfl, by decide⟩
      · trivial) _ _ dies
  refine ⟨_, _, moments, later, dies, by simp, run', same, ?_⟩
  have count := (stocked (fun c => by
    cases c with
    | false => rfl
    | true => exact Phase.isIdle_iff.mp idle)).count
  exact count.symm.trans stored

end InMemoryTable
