import InMemoryTable.Start

/-! Which clients can be inside a call of `Slots::insert` or `Slots::remove` on
the record slots at the same time. An insertion holds the semaphore of the
table, a removal only that of its record. -/
namespace InMemoryTable
open Interleaving Transition

variable {K T R B ι : Type} [DecidableEq K] [TableRecord T K]

/-- The task is going to call `Slots::insert` or `Slots::remove`. -/
def Task.ChangesSlots (codec : Bincode T) : Task K T R → Prop
  | .insert record => ∃ data, codec.encode record = .ok data
  | .update _ _ => False
  | .remove _ _ => True

/-- Between entering and leaving such a call. -/
def Phase.Inside : Phase K T R → Prop
  | .insertInside _ _ | .removeInside _ _ => True
  | _ => False

instance (phase : Phase K T R) : Decidable phase.Inside :=
  match phase with
  | .insertInside _ _ | .removeInside _ _ => isTrue trivial
  | .idle | .lookup _ | .findRead _ _ | .lock _ | .locked _ | .insertIndex _ _
  | .updateWrite _ _ _ | .removeIndex _ _ | .unlock _ _ | .reply _ _ => isFalse id

/-- Between taking the semaphore for such a call and leaving the call. -/
def Phase.Pending (codec : Bincode T) : Phase K T R → Prop
  | .locked task => task.ChangesSlots codec
  | phase => phase.Inside

/-- A semaphore is taken for a call that changes the slots only while every
other client with such a call pending holds that same semaphore. -/
def Unopposed (table : Table K B) (codec : Bincode T) (config : Phases ι K T R B)
    (label : ι × Event K T R) : Prop :=
  ∀ task, label.2 = .locked task → task.ChangesSlots codec →
    ∀ d ≠ label.1, (config.client d).Pending codec →
      (config.client d).holding table = some (task.semaphore table)

variable {table : Table K B} {codec : Bincode T} {calls : Operation K T R → Prop}
  {shared after : Shared B} {config last : Phases ι K T R B}

omit [DecidableEq K] [TableRecord T K] in
theorem Phase.Inside.pending {phase : Phase K T R} (inside : phase.Inside) : phase.Pending codec := by
  cases phase with
  | insertInside record data => trivial
  | removeInside key index => trivial
  | _ => exact inside.elim

omit [DecidableEq K] [TableRecord T K] in
theorem Phase.not_pending {phase : Phase K T R} (outside : phase.holding table = none) :
    ¬ phase.Pending codec := by
  cases phase with
  | locked task => cases outside
  | insertInside record data => cases outside
  | removeInside key index => cases outside
  | _ => exact id

/-- A call becomes pending by taking its semaphore. -/
theorem Effect.pending {phase next : Phase K T R} {event : Event K T R}
    (effect : Effect table codec calls shared phase event after next)
    (pending : next.Pending codec) :
    phase.Pending codec ∨
      ∃ task, event = .locked task ∧ next = .locked task ∧ task.ChangesSlots codec := by
  cases effect with
  | locked => exact .inr ⟨_, rfl, rfl, pending⟩
  | insertEntered encoded => exact .inl ⟨_, encoded⟩
  | removeEntered => exact .inl trivial
  | called => exact absurd pending (Phase.not_pending (Operation.holding_start table _))
  | searched => exact absurd pending (Phase.not_pending (Request.holding_found table _ _))
  | refused => exact absurd pending (Phase.not_pending (After.holding_phase table _))
  | unlocked => exact absurd pending (Phase.not_pending (After.holding_phase table _))
  | _ => exact pending.elim

variable [DecidableEq ι]

/-- At most one client has a call pending that changes the slots. -/
def Alone (codec : Bincode T) (config : Phases ι K T R B) : Prop :=
  ∀ c d, (config.client c).Pending codec → (config.client d).Pending codec → c = d

theorem Alone.step {label : ι × Event K T R} (invariant : Exclusive table config ∧ Alone codec config)
    (stepped : Guarded (Step (Effect table codec calls)) (Unopposed table codec) config label last) :
    Exclusive table last ∧ Alone codec last := by
  obtain ⟨exclusive, alone⟩ := invariant
  obtain ⟨moves, unopposed⟩ := stepped
  have exclusive' := exclusive.step moves
  refine ⟨exclusive', ?_⟩
  cases moves with
  | @move c event shared phase effect =>
    apply Config.moved_unique _ _ _ _ alone
    intro pending d different opposing
    rcases effect.pending pending with before | ⟨task, rfl, rfl, changes⟩
    · exact different (alone d c opposing before)
    · have held := unopposed task rfl changes d different opposing
      refine different (exclusive'.same_client (x := task.semaphore table) ?_ ?_)
      · rwa [Config.moved_other _ _ _ _ different]
      · rw [Config.moved_self]
        rfl

omit [DecidableEq K] [TableRecord T K] [DecidableEq ι] in
theorem Quiet.alone (quiet : Quiet table config) : Alone codec config := by
  intro c d pending
  rw [quiet.idle c] at pending
  exact pending.elim

/-! ### Where the condition fails, two clients can get inside -/

section Overlap
variable {shared : Shared B} {config : Config ι (Shared B) (Client K T R)}

omit [DecidableEq ι] in
theorem Client.enter (table : Table K B) (shared : Shared B) {client : Client K T R} {task : Task K T R}
    (locked : client.phase = .locked task) (changes : task.ChangesSlots codec) :
    ∃ moved, Computes (next table codec) shared client .entered shared moved ∧
      moved.phase.Inside := by
  cases task with
  | insert record =>
    obtain ⟨data, encoded⟩ := changes
    refine ⟨{ client with phase := .insertInside record data }, ?_, trivial⟩
    simp [Computes, next, locked, Phase.advance, Phase.work, encoded]
  | update change index => exact changes.elim
  | remove key index =>
    refine ⟨{ client with phase := .removeInside key index }, ?_, trivial⟩
    simp [Computes, next, locked, Phase.advance, Phase.work]

/-- A client with a call pending can enter it whatever the others do. -/
theorem Client.pending_enters (table : Table K B) {c : ι}
    (pending : (config.client c).phase.Pending codec) :
    ∃ more last, Run (Steps table codec) config more last ∧ (last.client c).phase.Inside ∧
      ∀ d ≠ c, last.client d = config.client d := by
  cases phase : (config.client c).phase with
  | locked task =>
    rw [phase] at pending
    obtain ⟨moved, entered, inside⟩ := enter table config.shared phase pending
    refine ⟨_, config.moved c config.shared moved, .next (.move entered) (.refl _), ?_, ?_⟩
    · rwa [Config.moved_self]
    · exact fun d different => Config.moved_other _ _ _ _ different
  | insertInside record data =>
    exact ⟨[], config, .refl _, by rw [phase]; trivial, fun _ _ => rfl⟩
  | removeInside key index =>
    exact ⟨[], config, .refl _, by rw [phase]; trivial, fun _ _ => rfl⟩
  | _ =>
    rw [phase] at pending
    exact pending.elim

end Overlap

/-- The calls of `Slots::insert` and `Slots::remove` exclude each other in every
run in which semaphores are taken for them unopposed; wherever a semaphore is
taken in spite of an opposing client, two clients can get inside. -/
theorem slots_calls_exclusive (table : Table K B) (codec : Bincode T)
    (config : Config ι (Shared B) (Client K T R)) (quiet : Quiet table (phases config)) :
    (∀ trace last, Run (Guarded (Client.Steps table codec)
        (fun config label => Unopposed table codec (phases config) label)) config trace last →
      ∀ c d, (last.client c).phase.Inside → (last.client d).phase.Inside → c = d) ∧
    ∀ (middle after : Config ι (Shared B) (Client K T R)) (label : ι × Event K T R),
      Client.Steps table codec middle label after → ¬ Unopposed table codec (phases middle) label →
      ∃ more last, Run (Client.Steps table codec) after more last ∧
        ∃ c d, c ≠ d ∧ (last.client c).phase.Inside ∧ (last.client d).phase.Inside := by
  constructor
  · intro trace last run c d first second
    have run := Client.run_effect (fun _ => True) _ (fun _ _ _ _ => trivial) run
    exact (run.invariant Alone.step ⟨quiet.exclusive, quiet.alone⟩).2 c d first.pending
      second.pending
  · rintro middle _ _ ⟨stepped⟩ opposed
    rename_i c event shared moved
    simp only [Unopposed, not_forall] at opposed
    obtain ⟨task, rfl, changes, d, different, opposing, _⟩ := opposed
    obtain ⟨effect, _⟩ := Client.next_effect (fun _ => True) (fun _ _ _ => trivial) stepped
    have pending : ((middle.moved c shared moved).client c).phase.Pending codec := by
      rw [Config.moved_self, effect.locked_task]
      exact changes
    obtain ⟨first, entered, run, inside, others⟩ := Client.pending_enters table pending
    have opposing : (entered.client d).phase.Pending codec := by
      rw [others d different, Config.moved_other _ _ _ _ different]
      exact opposing
    obtain ⟨second, last, run', inside', others'⟩ := Client.pending_enters table opposing
    refine ⟨first ++ second, last, run.trans run', c, d, different.symm, ?_, inside'⟩
    rwa [others' c different.symm]

/-- Client `false` inserts a second record while client `true` removes the first. -/
def overlapStart : Config Bool (Shared (Node UInt8)) (Client UInt8 (UInt8 × UInt8) Unit) :=
  starting (twoRecordsAfter [(1, 1)])
    (fun c => if c then [.remove 1] else [.insert (2, 5)])

/-- Client `false` gets inside while the other one has not yet started. -/
theorem slots_calls_exclusive_sample :
    ∃ trace last, Run (Guarded (Client.Steps twoRecords .twoBytes)
        (fun config label => Unopposed twoRecords .twoBytes (phases config) label))
        overlapStart trace last ∧
      (last.client false).phase.Inside ∧ ∀ d, (last.client d).phase.Inside → false = d := by
  obtain ⟨trace, last, inside, run⟩ := exists_run (Client.next twoRecords .twoBytes)
    (fun config label => label.1 == false && (config.client true).phase.isIdle)
    overlapStart [false, false, false, false]
    (fun _ last => decide (last.client false).phase.Inside) (by decide +kernel)
  have run : Run (Guarded (Client.Steps twoRecords .twoBytes)
      (fun config label => Unopposed twoRecords .twoBytes (phases config) label))
      overlapStart trace last := by
    refine run.mono (fun stepped => ⟨stepped.1, ?_⟩)
    obtain ⟨mover, idle⟩ := Bool.and_eq_true_iff.mp stepped.2
    intro task _ _ d different pending
    cases d with
    | false => exact absurd (eq_of_beq mover).symm different
    | true =>
      have idle := Phase.isIdle_iff.mp idle
      simp only [Config.map, idle] at pending
      exact pending.elim
  have first := of_decide_eq_true inside
  exact ⟨trace, last, run, first, fun d second =>
    (slots_calls_exclusive twoRecords .twoBytes overlapStart (starting_quiet ..)).1 trace last run
      false d first second⟩

theorem slots_calls_overlap :
    ¬ ∀ trace last, Run (Client.Steps twoRecords .twoBytes) overlapStart trace last →
      ∀ c d, (last.client c).phase.Inside → (last.client d).phase.Inside → c = d := by
  intro exclusive
  obtain ⟨trace, last, inside, run⟩ := exists_run (Client.next twoRecords .twoBytes)
    (fun _ _ => true) overlapStart [false, false, false, false, true, true, true, true]
    (fun _ last => decide ((last.client false).phase.Inside ∧ (last.client true).phase.Inside))
    (by decide +kernel)
  obtain ⟨first, second⟩ := of_decide_eq_true inside
  exact absurd (exclusive trace last run.unguarded false true first second) (by decide)

end InMemoryTable
