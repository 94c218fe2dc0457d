import InMemoryTable.UpdatesInterleaved

/-! Finds beside updates, on a table whose keys stay the same: a find answers
with the record that the table holds when it reads the slot. -/
namespace InMemoryTable
open Interleaving Transition

variable {K T R B ι : Type}

/-- The call leaves the set of keys as it is. -/
def Operation.KeepsKeys : Operation K T R → Prop
  | .insert _ | .remove _ => False
  | _ => True

/-- A find in progress has a valid lookup; the call that a release belongs to is
an update. -/
def Phase.Finds [DecidableEq K] (records : Records K T) : Phase K T R → Prop
  | .findRead key index => ∃ record, records.lookup key = some (index, record)
  | .unlock _ after => after.operation.IsUpdate
  | _ => True

theorem Update.isUpdate (change : Update K T R) : change.operation.IsUpdate := by
  cases change <;> trivial

theorem Operation.IsUpdate.keepsKeys {operation : Operation K T R} (update : operation.IsUpdate) :
    operation.KeepsKeys := by
  cases operation with
  | insert record => exact update
  | remove key => exact update
  | _ => trivial

theorem Operation.KeepsKeys.cases {operation : Operation K T R} (keeps : operation.KeepsKeys) :
    operation.IsUpdate ∨ ∃ key, operation = .find key := by
  cases operation with
  | insert record => exact keeps.elim
  | find key => exact .inr ⟨key, rfl⟩
  | remove key => exact keeps.elim
  | _ => exact .inl trivial

variable [DecidableEq K] [TableRecord T K] {table : Table K B} {codec : Bincode T}
  {capacity recordSize : Nat} {shared after : Shared B} {config last : Phases ι K T R B}
  {records : Records K T} {phase next : Phase K T R} {event : Event K T R}
  {calls others : Operation K T R → Prop}

/-- Inside a call it does not matter which calls a client may make. -/
theorem Effect.inside (effect : Effect table codec calls shared phase event after next)
    (inside : ∀ operation, event ≠ .called operation) :
    Effect table codec others shared phase event after next := by
  cases effect with
  | called => exact absurd rfl (inside _)
  | replied => exact .replied
  | searched found => exact .searched found
  | found => exact .found
  | refused refused => exact .refused refused
  | locked valid positive => exact .locked valid positive
  | rejected encoded => exact .rejected encoded
  | insertEntered encoded => exact .insertEntered encoded
  | insertRefused full => exact .insertRefused full
  | inserted inserted => exact .inserted inserted
  | linked linked => exact .linked linked
  | unread failed => exact .unread failed
  | applied got => exact .applied got
  | unwritten failed => exact .unwritten failed
  | written wrote => exact .written wrote
  | removeEntered => exact .removeEntered
  | removed => exact .removed
  | unlinked unlinked => exact .unlinked unlinked
  | unlocked => exact .unlocked

omit [TableRecord T K] in
/-- In an update there is nothing to say about finds. -/
theorem Phase.Within.finds (within : phase.Within Operation.IsUpdate) :
    phase.Finds records ∧ ∀ key answer, phase ≠ .reply (.find key) answer := by
  constructor
  · cases phase with
    | findRead key index => exact (within _ rfl).elim
    | unlock semNum after => exact within _ rfl
    | _ => trivial
  · rintro key answer rfl
    exact within _ rfl

omit [TableRecord T K] in
/-- A phase of an update or of a find, the latter spelt out. -/
theorem Phase.reader_cases (within : phase.Within Operation.KeepsKeys)
    (finds : phase.Finds records) :
    phase.Within Operation.IsUpdate ∨ (∃ key, phase = .lookup (.find key)) ∨
      (∃ key index, phase = .findRead key index) ∨ ∃ key answer, phase = .reply (.find key) answer := by
  have update : ∀ operation : Operation K T R, phase.operation = some operation →
      operation.IsUpdate → phase.Within Operation.IsUpdate := by
    intro operation current update other same
    cases current.symm.trans same
    exact update
  cases phase with
  | idle => exact .inl nofun
  | lookup request =>
    cases request with
    | insert record => exact (within _ rfl).elim
    | find key => exact .inr (.inl ⟨key, rfl⟩)
    | update change => exact .inl (update _ rfl change.isUpdate)
    | remove key => exact (within _ rfl).elim
  | findRead key index => exact .inr (.inr (.inl ⟨key, index, rfl⟩))
  | lock task =>
    cases task with
    | update change index => exact .inl (update _ rfl change.isUpdate)
    | _ => exact (within _ rfl).elim
  | locked task =>
    cases task with
    | update change index => exact .inl (update _ rfl change.isUpdate)
    | _ => exact (within _ rfl).elim
  | updateWrite change index record => exact .inl (update _ rfl change.isUpdate)
  | unlock semNum after => exact .inl (update _ rfl finds)
  | reply operation answer =>
    rcases (within _ rfl).cases with changes | ⟨key, rfl⟩
    · exact .inl (update _ rfl changes)
    · exact .inr (.inr (.inr ⟨key, answer, rfl⟩))
  | _ => exact (within _ rfl).elim

omit [TableRecord T K] in
theorem Progress.unstored {records' : Records K T} (progress : Progress records phase event records' next)
    (unwritten : event ≠ .wrote (.ok ())) : records' = records := by
  cases progress with
  | stored => exact absurd rfl unwritten
  | _ => rfl

/-- What a step does to the records and to its own client; a find that comes to
its answer answers with the record of the table. -/
structure Serving (table : Table K B) (codec : Bincode T) (capacity recordSize : Nat)
    (records : Records K T) (phase : Phase K T R) (event : Event K T R) (memory : TableMemory B)
    (records' : Records K T) (next : Phase K T R) : Prop where
  progress : Progress records phase event records' next
  holds : table.Holds codec capacity recordSize memory records'
  located : next.Located records'
  finds : next.Finds records'
  answer : ∀ {key result}, next = .reply (.find key) (.found result) →
    result = .ok (records'.under key)

theorem Effect.serving_update
    (effect : Effect table codec Operation.IsUpdate shared phase event after next)
    (within : phase.Within Operation.IsUpdate) (serves : table.Serves capacity)
    (holds : table.Holds codec capacity recordSize shared.memory records)
    (located : phase.Located records) :
    ∃ records', Serving table codec capacity recordSize records phase event after.memory records'
      next := by
  obtain ⟨records', progress, holds', located'⟩ := effect.progress within serves holds located
  obtain ⟨finds, apart⟩ := (effect.within within).finds
  exact ⟨records', progress, holds', located', finds, fun same => absurd same (apart _ _)⟩

theorem Effect.serving
    (effect : Effect table codec Operation.KeepsKeys shared phase event after next)
    (within : phase.Within Operation.KeepsKeys) (serves : table.Serves capacity)
    (holds : table.Holds codec capacity recordSize shared.memory records)
    (located : phase.Located records) (finds : phase.Finds records) :
    ∃ records', Serving table codec capacity recordSize records phase event after.memory records'
      next := by
  rcases Phase.reader_cases within finds with update | ⟨key, rfl⟩ | ⟨key, index, rfl⟩ |
    ⟨key, answer, rfl⟩
  · by_cases called : ∃ operation, event = .called operation
    · obtain ⟨operation, rfl⟩ := called
      cases effect with
      | called permitted =>
        rcases permitted.cases with changes | ⟨key, rfl⟩
        · exact (Effect.called changes).serving_update update serves holds located
        · refine ⟨records, .other rfl rfl (by simp), holds, trivial, trivial, ?_⟩
          rintro other result ⟨⟩
    · have effect : Effect table codec Operation.IsUpdate shared phase event after next :=
        effect.inside (fun operation same => called ⟨operation, same⟩)
      exact effect.serving_update update serves holds located
  · cases effect with
    | @searched request position found =>
      have same := (holds.lookup_eq serves.buckets key).symm.trans found
      cases lookup : records.lookup key with
      | none =>
        rw [lookup] at same
        cases same
        refine ⟨records, .other rfl rfl (by simp), holds, trivial, trivial, ?_⟩
        rintro key result ⟨⟩
        simp [Records.under, lookup]
      | some entry =>
        rw [lookup] at same
        cases same
        refine ⟨records, .other rfl rfl (by simp), holds, trivial, ⟨entry.2, lookup⟩, ?_⟩
        rintro other result ⟨⟩
  · cases effect with
    | found =>
      obtain ⟨record, lookup⟩ := finds
      refine ⟨records, .other rfl rfl (by simp), holds, trivial, trivial, ?_⟩
      rintro key result ⟨⟩
      simp [holds.get_eq lookup, Records.under, lookup]
  · cases effect with
    | replied =>
      refine ⟨records, .other rfl rfl (by simp), holds, trivial, trivial, ?_⟩
      rintro other result ⟨⟩

omit [TableRecord T K] in
/-- Replacing a record leaves the lookups of finds valid. -/
theorem Phase.Finds.insert (finds : phase.Finds records) {key : K} {index : Nat} {record written : T}
    (found : records.lookup key = some (index, record)) :
    phase.Finds (records.insert key (index, written)) := by
  cases phase with
  | findRead other i =>
    obtain ⟨value, lookup⟩ := finds
    by_cases same : other = key
    · subst same
      cases found.symm.trans lookup
      exact ⟨written, Finmap.lookup_insert _⟩
    · exact ⟨value, by rw [Finmap.lookup_insert_of_ne _ same, lookup]⟩
  | _ => exact finds

end InMemoryTable
