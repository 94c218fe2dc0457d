import InMemoryTable.Start

/-! The free list and the counter of the record slots under concurrent
insertions and removals. A removal looks its slot up before it takes the
semaphore of the record and does not look again. -/
namespace InMemoryTable
open Interleaving Transition

variable {K T R B ι : Type}

def Operation.InsertOrRemove : Operation K T R → Prop
  | .insert _ | .remove _ => True
  | _ => False

/-- The slot that a client is about to remove, under the semaphore of the record. -/
def Phase.removing : Phase K T R → Option Nat
  | .locked (.remove _ index) | .removeInside _ index => some index
  | _ => none

/-- The slot that the client is about to remove is in use. -/
def Phase.RemovesFrom (slots : Slots UInt8) (phase : Phase K T R) : Prop :=
  ∀ index, phase.removing = some index → slots.Occupied index

/-- A removal takes the semaphore of its record only while the slot that it
looked up is occupied. -/
def RemovesLive (config : Phases ι K T R B) (label : ι × Event K T R) : Prop :=
  ∀ key index, label.2 = .locked (.remove key index) → config.shared.memory.slots.Occupied index

section Removing

theorem Phase.removing_holding {table : Table K B} {phase : Phase K T R} {index : Nat}
    (removing : phase.removing = some index) :
    phase.holding table = some (table.semaphores.recordNumber index) := by
  cases phase with
  | locked task =>
    cases task with
    | remove key i =>
      cases removing
      rfl
    | _ => cases removing
  | removeInside key i =>
    cases removing
    rfl
  | _ => cases removing

theorem Phase.removing_of_outside {table : Table K B} {phase : Phase K T R}
    (outside : phase.holding table = none) : phase.removing = none := by
  apply Option.eq_none_iff_forall_ne_some.mpr
  intro index removing
  cases outside.symm.trans (Phase.removing_holding removing)

end Removing

variable [DecidableEq K] [TableRecord T K] {table : Table K B} {codec : Bincode T}
  {capacity recordSize : Nat} {shared after : Shared B} {config last : Phases ι K T R B}

/-- What a step of a client that inserts or removes does to the record slots. -/
inductive SlotsEffect (shared : Shared B) (phase : Phase K T R) (event : Event K T R)
    (after : Shared B) (next : Phase K T R) : Prop where
  | same : after.memory.slots = shared.memory.slots →
      (next.removing = phase.removing ∨ next.removing = none ∨
        ∃ key index, event = .locked (.remove key index) ∧ next.removing = some index) →
      SlotsEffect shared phase event after next
  | inserted {data : List UInt8} {index : Nat} :
      Slots.Inserted shared.memory.slots index data after.memory.slots → next.removing = none →
      SlotsEffect shared phase event after next
  | removed {index : Nat} : phase.removing = some index →
      after.memory.slots = shared.memory.slots.remove index → next.removing = none →
      SlotsEffect shared phase event after next

theorem Effect.slots {phase next : Phase K T R} {event : Event K T R}
    (effect : Effect table codec Operation.InsertOrRemove shared phase event after next)
    (within : phase.Within Operation.InsertOrRemove)
    (sized : Slots.Sized capacity recordSize shared.memory.slots) :
    SlotsEffect shared phase event after next := by
  cases effect with
  | called => exact .same rfl (.inr (.inl (Phase.removing_of_outside (Operation.holding_start table _))))
  | searched => exact .same rfl (.inr (.inl (Phase.removing_of_outside (Request.holding_found table _ _))))
  | refused => exact .same rfl (.inr (.inl (Phase.removing_of_outside (After.holding_phase table _))))
  | unlocked => exact .same rfl (.inr (.inl (Phase.removing_of_outside (After.holding_phase table _))))
  | @locked task valid positive =>
    cases task with
    | insert record => exact .same rfl (.inr (.inl rfl))
    | update change index => exact .same rfl (.inr (.inl rfl))
    | remove key index => exact .same rfl (.inr (.inr ⟨key, index, rfl, rfl⟩))
  | @insertRefused record data e slots refused =>
    obtain ⟨_, same⟩ | ⟨_, _, same⟩ | ⟨_, _, _, _, same, _⟩ := sized.insert_cases data
    · cases same.symm.trans refused
      exact .same rfl (.inr (.inl rfl))
    · cases same.symm.trans refused
      exact .same rfl (.inr (.inl rfl))
    · cases same.symm.trans refused
  | @inserted record data index slots stored =>
    obtain ⟨_, same⟩ | ⟨_, _, same⟩ | ⟨_, _, _, _, same, inserted⟩ := sized.insert_cases data
    · cases same.symm.trans stored
    · cases same.symm.trans stored
    · cases same.symm.trans stored
      exact .inserted inserted rfl
  | removed => exact .removed rfl rfl rfl
  | @unwritten change =>
    have updating := within _ rfl
    cases change <;> exact updating.elim
  | @written change =>
    have updating := within _ rfl
    cases change <;> exact updating.elim
  | removeEntered => exact .same rfl (.inl rfl)
  | _ => exact .same rfl (.inr (.inl rfl))

/-- The slots are well formed, and every slot about to be removed is in use. -/
structure Intact (table : Table K B) (capacity recordSize : Nat) (config : Phases ι K T R B) :
    Prop where
  exclusive : Exclusive table config
  within : ∀ c, (config.client c).Within Operation.InsertOrRemove
  slots : Slots.Sized capacity recordSize config.shared.memory.slots
  live : ∀ c, (config.client c).RemovesFrom config.shared.memory.slots

variable [DecidableEq ι] {label : ι × Event K T R}

theorem Intact.step (intact : Intact table capacity recordSize config)
    (stepped : Guarded (Step (Effect table codec Operation.InsertOrRemove)) RemovesLive config label
      last) : Intact table capacity recordSize last := by
  obtain ⟨moves, guarded⟩ := stepped
  have exclusive := intact.exclusive.step moves
  cases moves with
  | @move c event shared phase effect =>
    have within : ∀ d, ((config.moved c shared phase).client d).Within Operation.InsertOrRemove :=
      config.moved_forall c shared phase (effect.within (intact.within c))
        (fun d _ => intact.within d)
    have live : phase.RemovesFrom shared.memory.slots →
        (∀ d ≠ c, (config.client d).RemovesFrom shared.memory.slots) →
        ∀ d, ((config.moved c shared phase).client d).RemovesFrom shared.memory.slots :=
      config.moved_forall c shared phase (P := fun _ phase => phase.RemovesFrom shared.memory.slots)
    cases effect.slots (intact.within c) intact.slots with
    | same same removing =>
      refine ⟨exclusive, within, by simpa only [Config.moved_shared, same] using intact.slots,
        live ?_ (fun d _ => by rw [same]; exact intact.live d)⟩
      intro index removes
      rw [same]
      rcases removing with before | none | ⟨key, i, rfl, now⟩
      · exact intact.live c index (before.symm.trans removes)
      · simp [none] at removes
      · cases now.symm.trans removes
        exact guarded key index rfl
    | inserted inserted idle =>
      refine ⟨exclusive, within, inserted.sized intact.slots, live ?_ ?_⟩
      · intro index removes
        simp [idle] at removes
      · intro d _ index removes
        exact inserted.occupied_iff.mpr (.inl (intact.live d index removes))
    | @removed index mine same idle =>
      have removed := intact.slots.wellFormed.remove_ok (intact.live c index mine)
      rw [← same] at removed
      refine ⟨exclusive, within, removed.sized intact.slots, live ?_ ?_⟩
      · intro i removes
        simp [idle] at removes
      · intro d different i removes
        refine removed.occupied_iff.mpr ⟨intact.live d i removes, ?_⟩
        rintro rfl
        exact different (intact.exclusive.same_client (Phase.removing_holding removes)
          (Phase.removing_holding mine))

omit [DecidableEq ι] [TableRecord T K] in
theorem Started.intact {records : Records K T}
    (started : Started table codec capacity recordSize config records) :
    Intact table capacity recordSize config where
  exclusive := started.exclusive
  within c operation current := by
    rw [started.idle c] at current
    cases current
  slots := started.holds.slots
  live c index removes := by
    rw [started.idle c] at removes
    cases removes

/-- Under concurrent insertions and removals the counter and the free list stay
exact and no free slot is removed, as long as every removal that takes its
semaphore still finds its slot in use; a removal that does not goes on to remove
a slot that is not in use. -/
theorem interleaved_slots_exact (records : Records K T)
    (config : Config ι (Shared B) (Client K T R))
    (started : Started table codec capacity recordSize (phases config) records)
    (programs : ∀ c, (config.client c).Calls Operation.InsertOrRemove) :
    (∀ trace last, Run (Guarded (Client.Steps table codec)
        (fun config label => RemovesLive (phases config) label)) config trace last →
      last.shared.memory.slots.count = last.shared.memory.slots.occupiedSlots.length ∧
      (∃ free, last.shared.memory.slots.FreeList free) ∧
      ∀ c key index, (last.client c).phase = .removeInside key index →
        last.shared.memory.slots.Occupied index) ∧
    ∀ (middle after : Config ι (Shared B) (Client K T R)) (label : ι × Event K T R),
      Client.Steps table codec middle label after → ¬ RemovesLive (phases middle) label →
      ∃ more last, Run (Client.Steps table codec) after more last ∧
        ∃ c key index, (last.client c).phase = .removeInside key index ∧
          ¬ last.shared.memory.slots.Occupied index := by
  constructor
  · intro trace last run
    have run := Client.run_effect Operation.InsertOrRemove _ programs run
    have intact := run.invariant Intact.step started.intact
    obtain ⟨free, list, _⟩ := intact.slots.wellFormed.threaded
    refine ⟨intact.slots.wellFormed.count_eq, ⟨free, list⟩, fun c key index inside => ?_⟩
    apply intact.live c index
    simp only [Config.map, inside, Phase.removing]
  · rintro middle _ _ ⟨stepped⟩ stale
    rename_i c event shared moved
    simp only [RemovesLive, not_forall] at stale
    obtain ⟨key, index, rfl, unused⟩ := stale
    obtain ⟨effect, _⟩ := Client.next_effect (fun _ => True) (fun _ _ _ => trivial) stepped
    have locked : moved.phase = .locked (.remove key index) := effect.locked_task
    have same : shared.memory = middle.shared.memory := effect.locked_memory
    have entered : Computes (Client.next table codec) shared moved .entered shared
        { moved with phase := .removeInside key index } := by
      simp [Computes, Client.next, locked, Phase.advance, Phase.work]
    refine ⟨_, _, .next (.again entered) (.refl _), c, key, index, ?_, ?_⟩
    · rw [Config.moved_self]
    · rw [Config.moved_shared, same]
      exact unused

/-- Both clients remove the same record. -/
def staleStart : Config Bool (Shared (Node UInt8)) (Client UInt8 (UInt8 × UInt8) Unit) :=
  starting (twoRecordsAfter [(1, 1)]) (fun _ => [.remove 1])

theorem staleStart_calls (c : Bool) : (staleStart.client c).Calls Operation.InsertOrRemove := by
  apply Client.ofCalls_calls
  intro operation member
  rw [List.mem_singleton.mp member]
  trivial

/-- The slot of a removal that takes the semaphore of its record. -/
def Event.removing : Event K T R → Option Nat
  | .locked (.remove _ index) => some index
  | _ => none

/-- Client `false` removes the record before client `true` starts. -/
theorem interleaved_slots_exact_sample :
    ∃ trace last, Run (Guarded (Client.Steps twoRecords .twoBytes)
        (fun config label => RemovesLive (phases config) label)) staleStart trace last ∧
      last.shared.memory.slots.occupiedSlots = [] ∧ last.shared.memory.slots.count = 0 := by
  obtain ⟨records, holds, _⟩ := twoRecordsAfter_holds [(1, 1)]
  obtain ⟨trace, last, empty, run⟩ := exists_run (Client.next twoRecords .twoBytes)
    (fun config label => label.2.removing.all (fun index =>
      decide (config.shared.memory.slots.Occupied index)))
    staleStart [false, false, false, false, false, false, false, false]
    (fun _ last => decide (last.shared.memory.slots.occupiedSlots = [])) (by decide +kernel)
  have run : Run (Guarded (Client.Steps twoRecords .twoBytes)
      (fun config label => RemovesLive (phases config) label)) staleStart trace last := by
    refine run.mono (fun stepped => ⟨stepped.1, fun key index locked => ?_⟩)
    have fine := stepped.2
    simp only [locked] at fine
    exact of_decide_eq_true fine
  have empty := of_decide_eq_true empty
  have exact := ((interleaved_slots_exact records staleStart (holds.started _)
    staleStart_calls).1 trace last run).1
  rw [empty] at exact
  exact ⟨trace, last, run, empty, exact⟩

/-- Client `true` has looked the record up before client `false` removes it, and
removes its slot once more: the counter wraps around. -/
theorem interleaved_slots_underflow :
    ¬ ∀ trace last, Run (Client.Steps twoRecords .twoBytes) staleStart trace last →
      last.shared.memory.slots.count = last.shared.memory.slots.occupiedSlots.length ∧
      (∃ free, last.shared.memory.slots.FreeList free) ∧
      ∀ c key index, (last.client c).phase = .removeInside key index →
        last.shared.memory.slots.Occupied index := by
  intro exact
  obtain ⟨trace, last, wrapped, run⟩ := exists_run (Client.next twoRecords .twoBytes)
    (fun _ _ => true) staleStart
    [true, true, false, false, false, false, false, false, false, true, true, true]
    (fun _ last => decide (last.shared.memory.slots.count = usizeModulus - 1 ∧
      last.shared.memory.slots.occupiedSlots = [])) (by decide +kernel)
  obtain ⟨count, occupied⟩ := of_decide_eq_true wrapped
  have same := (exact trace last run.unguarded).1
  rw [count, occupied] at same
  exact absurd same (by decide)

end InMemoryTable
