import InMemoryTable.Start

/-! Concurrent updates of records. Whatever the interleaving, a record ends with
the effects of its completed updates in the order in which these took the
semaphore of the record. -/
namespace InMemoryTable
open Interleaving Transition

variable {K T R B ι : Type}

def Operation.IsUpdate : Operation K T R → Prop
  | .updateWithLock _ _ | .updateMany _ _ => True
  | _ => False

/-- The update that a client makes under the semaphore of the record. -/
def Phase.updating : Phase K T R → Option (Update K T R)
  | .locked (.update change _) | .updateWrite change _ _ => some change
  | _ => none

section History
variable [DecidableEq ι]

/-- The update that client `c` is making is written back later on. -/
def succeeds (c : ι) : List (ι × Event K T R) → Bool
  | [] => false
  | (d, event) :: rest =>
    if d = c then
      match event with
      | .wrote result => result.isOk
      | .unlocked _ => false
      | _ => succeeds c rest
    else succeeds c rest

/-- The closures of the completed updates of `key`, in the order in which the
clients took the semaphore. -/
def completed [DecidableEq K] (key : K) : List (ι × Event K T R) → List (T → T)
  | [] => []
  | (c, .locked (.update change _)) :: rest =>
    if change.key = key ∧ succeeds c rest = true then change.apply :: completed key rest
    else completed key rest
  | _ :: rest => completed key rest

theorem succeeds_other {c d : ι} (different : d ≠ c) (event : Event K T R)
    (rest : List (ι × Event K T R)) : succeeds c ((d, event) :: rest) = succeeds c rest := by
  simp only [succeeds, different, if_false]

theorem completed_skip [DecidableEq K] {key : K} {c : ι} {event : Event K T R}
    (rest : List (ι × Event K T R))
    (skipped : ∀ change index, event = .locked (.update change index) → change.key ≠ key) :
    completed key ((c, event) :: rest) = completed key rest := by
  cases event with
  | locked task =>
    cases task with
    | update change index =>
      have different := skipped change index rfl
      simp only [completed, different, false_and, if_false]
    | insert record => rfl
    | remove key index => rfl
  | _ => rfl

end History

theorem Phase.updating_of_outside {table : Table K B} {phase : Phase K T R}
    (outside : phase.holding table = none) : phase.updating = none := by
  cases phase with
  | locked task => cases outside
  | updateWrite change index record => cases outside
  | _ => rfl

variable [DecidableEq K]

/-- The lookup of an update in progress is still valid, and so is the copy of
the record that it has read. -/
def Phase.Located (records : Records K T) : Phase K T R → Prop
  | .lock (.update change index) | .locked (.update change index) =>
    ∃ record, records.lookup change.key = some (index, record)
  | .updateWrite change index record => records.lookup change.key = some (index, record)
  | _ => True

section Located
variable {records : Records K T}

theorem After.located_phase (after : After K T R) : after.phase.Located records := by
  cases after with
  | reply operation answer => trivial
  | many updater keys rest found => cases rest <;> trivial

theorem Operation.located_start (operation : Operation K T R) :
    operation.start.Located records := by
  cases operation with
  | updateMany keys updater => exact After.located_phase _
  | _ => trivial

/-- Replacing the record of another key, or of this one by a client that does
not hold a copy, leaves a valid lookup valid. -/
theorem Phase.Located.insert {phase : Phase K T R} (located : phase.Located records) {key : K}
    {index : Nat} {record written : T} (found : records.lookup key = some (index, record))
    (apart : ∀ change, phase.updating = some change → change.key ≠ key) :
    phase.Located (records.insert key (index, written)) := by
  have kept : ∀ {other i value}, records.lookup other = some (i, value) →
      ∃ value', (records.insert key (index, written)).lookup other = some (i, value') := by
    intro other i value lookup
    by_cases same : other = key
    · subst same
      cases found.symm.trans lookup
      exact ⟨written, Finmap.lookup_insert _⟩
    · exact ⟨value, by rw [Finmap.lookup_insert_of_ne _ same, lookup]⟩
  cases phase with
  | lock task =>
    cases task with
    | update change i =>
      obtain ⟨value, lookup⟩ := located
      exact kept lookup
    | _ => trivial
  | locked task =>
    cases task with
    | update change i =>
      obtain ⟨value, lookup⟩ := located
      exact kept lookup
    | _ => trivial
  | updateWrite change i value =>
    have located : records.lookup change.key = some (i, value) := located
    change (records.insert key (index, written)).lookup change.key = some (i, value)
    rw [Finmap.lookup_insert_of_ne _ (apart change rfl), located]
  | _ => trivial

end Located

variable [TableRecord T K] {table : Table K B} {codec : Bincode T} {capacity recordSize : Nat}
  {shared after : Shared B} {config last : Phases ι K T R B} {records : Records K T}

/-- What a step of a client that updates does to the records and to its own
update in progress. -/
inductive Progress (records : Records K T) (phase : Phase K T R) :
    Event K T R → Records K T → Phase K T R → Prop where
  | started {change : Update K T R} {index : Nat} {next : Phase K T R} :
      phase.updating = none → next.updating = some change →
      Progress records phase (.locked (.update change index)) records next
  | copied {change : Update K T R} {record : T} {next : Phase K T R} :
      phase.updating = some change → next.updating = some change →
      Progress records phase (.applied change.key record) records next
  | stored {change : Update K T R} {index : Nat} {record : T} {next : Phase K T R} :
      phase.updating = some change → next.updating = none →
      records.lookup change.key = some (index, record) →
      Progress records phase (.wrote (.ok ()))
        (records.insert change.key (index, change.apply record)) next
  | dropped {change : Update K T R} {e : InMemoryTableError} {next : Phase K T R} :
      phase.updating = some change → next.updating = none →
      Progress records phase (.wrote (.error e)) records next
  | other {event : Event K T R} {next : Phase K T R} :
      phase.updating = none → next.updating = none → (∀ task, event ≠ .locked task) →
      Progress records phase event records next

theorem Effect.progress {phase next : Phase K T R} {event : Event K T R}
    (effect : Effect table codec Operation.IsUpdate shared phase event after next)
    (within : phase.Within Operation.IsUpdate) (serves : table.Serves capacity)
    (holds : table.Holds codec capacity recordSize shared.memory records)
    (located : phase.Located records) :
    ∃ records', Progress records phase event records' next ∧
      table.Holds codec capacity recordSize after.memory records' ∧ next.Located records' := by
  cases effect with
  | called =>
    exact ⟨records, .other rfl (Phase.updating_of_outside (Operation.holding_start table _)) nofun,
      holds, Operation.located_start _⟩
  | replied => exact ⟨records, .other rfl rfl nofun, holds, trivial⟩
  | @searched request position found =>
    refine ⟨records, .other rfl (Phase.updating_of_outside (Request.holding_found table _ _)) nofun,
      holds, ?_⟩
    cases request with
    | update change =>
      cases lookup : records.lookup change.key with
      | none =>
        have same := (holds.lookup_eq serves.buckets change.key).symm.trans found
        rw [lookup] at same
        cases same
        exact After.located_phase _
      | some entry =>
        have same := (holds.lookup_eq serves.buckets change.key).symm.trans found
        rw [lookup] at same
        cases same
        exact ⟨entry.2, lookup⟩
    | _ => exact (within _ rfl).elim
  | refused =>
    exact ⟨records, .other rfl (Phase.updating_of_outside (After.holding_phase table _)) nofun, holds,
      After.located_phase _⟩
  | @locked task valid positive =>
    cases task with
    | update change index => exact ⟨records, .started rfl rfl, holds, located⟩
    | _ => exact (within _ rfl).elim
  | @unread change index e failed =>
    obtain ⟨record, lookup⟩ := located
    cases (holds.get_eq lookup).symm.trans failed
  | @applied change index record got =>
    obtain ⟨record', lookup⟩ := located
    cases (holds.get_eq lookup).symm.trans got
    exact ⟨records, .copied rfl rfl, holds, lookup⟩
  | @unwritten change index record e memory failed =>
    have lookup : records.lookup change.key = some (index, record) := located
    rcases holds.update_cases lookup (change.apply record) with ⟨_, _, same⟩ | ⟨_, _, same, _⟩
    · cases same.symm.trans failed
      exact ⟨records, .dropped rfl rfl, holds, trivial⟩
    · cases same.symm.trans failed
  | @written change index record memory wrote =>
    have lookup : records.lookup change.key = some (index, record) := located
    rcases holds.update_cases lookup (change.apply record) with ⟨_, _, same⟩ | ⟨_, _, same, held⟩
    · cases same.symm.trans wrote
    · cases same.symm.trans wrote
      exact ⟨_, .stored rfl rfl lookup, held, trivial⟩
  | unlocked =>
    exact ⟨records, .other rfl (Phase.updating_of_outside (After.holding_phase table _)) nofun, holds,
      After.located_phase _⟩
  | _ => exact (within _ rfl).elim

/-- The table holds `records`, and all lookups and copies of the clients are valid. -/
structure Updating (table : Table K B) (codec : Bincode T) (capacity recordSize : Nat)
    (config : Phases ι K T R B) (records : Records K T) : Prop where
  exclusive : Exclusive table config
  within : ∀ c, (config.client c).Within Operation.IsUpdate
  holds : table.Holds codec capacity recordSize config.shared.memory records
  located : ∀ c, (config.client c).Located records

omit [TableRecord T K] in
/-- Two clients that update the same record are the same client. -/
theorem Exclusive.same_update (exclusive : Exclusive table config)
    (valid : ∀ c, (config.client c).Located records) {c d : ι} {first second : Update K T R}
    (mine : (config.client c).updating = some first)
    (other : (config.client d).updating = some second) (same : second.key = first.key) : d = c := by
  have held : ∀ {e : ι} {change : Update K T R}, (config.client e).updating = some change →
      ∃ index record, records.lookup change.key = some (index, record) ∧
        (config.client e).holding table = some (table.semaphores.recordNumber index) := by
    intro e change working
    have located := valid e
    cases phase : (config.client e) with
    | locked task =>
      rw [phase] at working located
      cases task with
      | update change' index =>
        cases working
        obtain ⟨record, lookup⟩ := located
        exact ⟨index, record, lookup, rfl⟩
      | _ => cases working
    | updateWrite change' index record =>
      rw [phase] at working located
      cases working
      exact ⟨index, record, located, rfl⟩
    | _ =>
      rw [phase] at working
      cases working
  obtain ⟨index, record, lookup, holding⟩ := held mine
  obtain ⟨index', record', lookup', holding'⟩ := held other
  rw [same] at lookup'
  cases lookup.symm.trans lookup'
  exact exclusive.same_client holding' holding

omit [TableRecord T K] in
theorem Updating.same_key (updating : Updating table codec capacity recordSize config records)
    {c d : ι} {first second : Update K T R} (mine : (config.client c).updating = some first)
    (other : (config.client d).updating = some second) (same : second.key = first.key) : d = c :=
  updating.exclusive.same_update updating.located mine other same

variable [DecidableEq ι]

theorem Updating.step (updating : Updating table codec capacity recordSize config records)
    (serves : table.Serves capacity) {c : ι} {event : Event K T R}
    (moves : Step (Effect table codec Operation.IsUpdate) config (c, event) last) :
    ∃ records', Updating table codec capacity recordSize last records' ∧
      Progress records (config.client c) event records' (last.client c) ∧
      ∀ d ≠ c, last.client d = config.client d := by
  have exclusive := updating.exclusive.step moves
  cases moves with
  | @move _ _ shared phase effect =>
    obtain ⟨records', progress, holds, located⟩ :=
      effect.progress (updating.within c) serves updating.holds (updating.located c)
    refine ⟨records', ⟨exclusive, ?_, holds, ?_⟩, by rwa [Config.moved_self],
      fun d different => Config.moved_other _ _ _ _ different⟩
    · exact config.moved_forall c shared phase (effect.within (updating.within c))
        (fun d _ => updating.within d)
    · refine config.moved_forall c shared phase (P := fun _ phase => phase.Located records') located
        (fun d different => ?_)
      cases progress with
      | stored mine _ found =>
        refine (updating.located d).insert found (fun change working same => ?_)
        exact different (updating.same_key mine working same)
      | _ => exact updating.located d

/-- The closures still to be applied to the record of `key` by the client, if
any, that holds its semaphore. -/
inductive Outstanding (config : Phases ι K T R B) (key : K) (trace : List (ι × Event K T R)) :
    List (T → T) → Prop where
  | working {c : ι} {change : Update K T R} :
      (config.client c).updating = some change → change.key = key →
      Outstanding config key trace (if succeeds c trace then [change.apply] else [])
  | none : (∀ c change, (config.client c).updating = some change → change.key ≠ key) →
      Outstanding config key trace []

section Outstanding
variable {middle : Phases ι K T R B} {c : ι} {event : Event K T R} {key : K}
  {rest : List (ι × Event K T R)} {pending : List (T → T)}

omit [DecidableEq K] [TableRecord T K] in
/-- A step of a client that works on another record, or on none. -/
theorem Outstanding.elsewhere (outstanding : Outstanding config key ((c, event) :: rest) pending)
    (before : ∀ change, (config.client c).updating = some change → change.key ≠ key)
    (after : ∀ change, (middle.client c).updating = some change → change.key ≠ key)
    (others : ∀ d ≠ c, middle.client d = config.client d) :
    Outstanding middle key rest pending := by
  cases outstanding with
  | @working d change working same =>
    have different : d ≠ c := by
      rintro rfl
      exact before change working same
    rw [succeeds_other different.symm]
    rw [← others d different] at working
    exact .working working same
  | none nobody =>
    refine .none (fun d change working => ?_)
    by_cases moved : d = c
    · subst moved
      exact after change working
    · rw [others d moved] at working
      exact nobody d change working

omit [TableRecord T K] in
/-- While client `c` works on the record of `key`, nobody else does. -/
theorem Outstanding.eq_mine (outstanding : Outstanding config key ((c, event) :: rest) pending)
    (updating : Updating table codec capacity recordSize config records) {change : Update K T R}
    (mine : (config.client c).updating = some change) (same : change.key = key) :
    pending = if succeeds c ((c, event) :: rest) then [change.apply] else [] := by
  cases outstanding with
  | @working d change' working same' =>
    obtain rfl := updating.same_key mine working (same'.trans same.symm)
    cases mine.symm.trans working
    rfl
  | none nobody => exact absurd same (nobody c change mine)

omit [TableRecord T K] in
theorem Outstanding.of_released (updating : Updating table codec capacity recordSize config records)
    {change : Update K T R} (mine : (config.client c).updating = some change)
    (same : change.key = key) (released : (middle.client c).updating = .none)
    (others : ∀ d ≠ c, middle.client d = config.client d) :
    Outstanding middle key rest [] := by
  refine .none (fun d change' working same' => ?_)
  by_cases moved : d = c
  · subst moved
    rw [released] at working
    cases working
  · rw [others d moved] at working
    exact moved (updating.same_key mine working (same'.trans same.symm))

omit [TableRecord T K] in
/-- One step: what it does to the record of `key` and to the closures still to
be applied adds up to what is due for it. -/
theorem Outstanding.step {records' : Records K T} {index : Nat} {record : T}
    (updating : Updating table codec capacity recordSize config records)
    (updating' : Updating table codec capacity recordSize middle records')
    (progress : Progress records (config.client c) event records' (middle.client c))
    (others : ∀ d ≠ c, middle.client d = config.client d)
    (lookup : records.lookup key = some (index, record))
    (outstanding : Outstanding config key ((c, event) :: rest) pending) :
    ∃ record' pending', records'.lookup key = some (index, record') ∧
      Outstanding middle key rest pending' ∧
      (pending ++ completed key ((c, event) :: rest)).foldl (fun value f => f value) record =
        (pending' ++ completed key rest).foldl (fun value f => f value) record' := by
  cases progress with
  | @started change i _ idle working =>
    by_cases same : change.key = key
    · have pending_nil : pending = [] := by
        cases outstanding with
        | @working d change' busy same' =>
          have different : d ≠ c := by
            rintro rfl
            rw [idle] at busy
            cases busy
          rw [← others d different] at busy
          exact absurd (updating'.same_key working busy (same'.trans same.symm)) different
        | none nobody => rfl
      subst pending_nil
      refine ⟨record, _, lookup, .working working same, ?_⟩
      simp only [completed, same, true_and, List.nil_append]
      split <;> rfl
    · refine ⟨record, pending, lookup, outstanding.elsewhere ?_ ?_ others, ?_⟩
      · intro change' busy
        rw [idle] at busy
        cases busy
      · intro change' busy
        cases working.symm.trans busy
        exact same
      · rw [completed_skip]
        intro change' i' started
        cases started
        exact same
  | @copied change value _ before after =>
    have skipped : completed key ((c, .applied change.key value) :: rest) = completed key rest :=
      completed_skip rest nofun
    rw [skipped]
    by_cases same : change.key = key
    · rw [outstanding.eq_mine updating before same]
      refine ⟨record, _, lookup, .working after same, ?_⟩
      simp only [succeeds, if_true]
    · refine ⟨record, pending, lookup, outstanding.elsewhere ?_ ?_ others, rfl⟩
      · intro change' busy
        cases before.symm.trans busy
        exact same
      · intro change' busy
        cases after.symm.trans busy
        exact same
  | @stored change i value _ before after found =>
    have skipped : completed key ((c, .wrote (.ok ())) :: rest) = completed key rest :=
      completed_skip rest nofun
    rw [skipped]
    by_cases same : change.key = key
    · rw [outstanding.eq_mine updating before same]
      subst same
      cases lookup.symm.trans found
      refine ⟨change.apply record, [], Finmap.lookup_insert _,
        .of_released updating before rfl after others, ?_⟩
      simp [succeeds, Except.isOk, Except.toBool]
    · refine ⟨record, pending, ?_, outstanding.elsewhere ?_ ?_ others, rfl⟩
      · rw [Finmap.lookup_insert_of_ne _ (Ne.symm same), lookup]
      · intro change' busy
        cases before.symm.trans busy
        exact same
      · intro change' busy
        cases after.symm.trans busy
  | @dropped change e _ before after =>
    have skipped : completed key ((c, .wrote (.error e)) :: rest) = completed key rest :=
      completed_skip rest nofun
    rw [skipped]
    by_cases same : change.key = key
    · rw [outstanding.eq_mine updating before same]
      refine ⟨record, [], lookup, .of_released updating before same after others, ?_⟩
      simp [succeeds, Except.isOk, Except.toBool]
    · refine ⟨record, pending, lookup, outstanding.elsewhere ?_ ?_ others, rfl⟩
      · intro change' busy
        cases before.symm.trans busy
        exact same
      · intro change' busy
        cases after.symm.trans busy
  | other before after neutral =>
    rw [completed_skip rest (fun change i started => absurd started (neutral _))]
    refine ⟨record, pending, lookup, outstanding.elsewhere ?_ ?_ others, rfl⟩
    · intro change busy
      cases before.symm.trans busy
    · intro change busy
      cases after.symm.trans busy

end Outstanding

theorem Updating.run (updating : Updating table codec capacity recordSize config records)
    (serves : table.Serves capacity) {trace : List (ι × Event K T R)}
    (run : Run (Step (Effect table codec Operation.IsUpdate)) config trace last) :
    ∃ records', Updating table codec capacity recordSize last records' ∧
      ∀ key index record pending, records.lookup key = some (index, record) →
        Outstanding config key trace pending →
        records'.lookup key = some (index,
          (pending ++ completed key trace).foldl (fun value f => f value) record) := by
  induction run generalizing records with
  | refl config =>
    refine ⟨records, updating, fun key index record pending lookup outstanding => ?_⟩
    have nothing : pending = [] := by
      cases outstanding <;> simp [succeeds]
    simpa [nothing, completed] using lookup
  | @next config label middle rest last stepped _ ih =>
    obtain ⟨c, event⟩ := label
    obtain ⟨records', updating', progress, others⟩ := updating.step serves stepped
    obtain ⟨final, updating'', values⟩ := ih updating'
    refine ⟨final, updating'', fun key index record pending lookup outstanding => ?_⟩
    obtain ⟨record', pending', lookup', outstanding', same⟩ :=
      outstanding.step updating updating' progress others lookup
    rw [same]
    exact values key index record' pending' lookup' outstanding'

omit [DecidableEq ι] [TableRecord T K] in
theorem Started.updating (started : Started table codec capacity recordSize config records) :
    Updating table codec capacity recordSize config records where
  exclusive := started.exclusive
  within c operation current := by
    rw [started.idle c] at current
    cases current
  holds := started.holds
  located c := by
    rw [started.idle c]
    trivial

/-- In every state of every interleaving of updates, each record is its initial
value with the closures of its completed updates applied, each once and in the
order in which the clients took the semaphore of the record. -/
theorem no_update_lost (serves : table.Serves capacity) (records : Records K T)
    (config last : Config ι (Shared B) (Client K T R)) (trace : List (ι × Event K T R))
    (started : Started table codec capacity recordSize (phases config) records)
    (programs : ∀ c, (config.client c).Calls Operation.IsUpdate)
    (run : Run (Client.Steps table codec) config trace last)
    (key : K) (index : Nat) (record : T) (present : records.lookup key = some (index, record)) :
    table.find codec last.shared.memory key =
      some (.ok (some ((completed key trace).foldl (fun value f => f value) record))) := by
  obtain ⟨records', updating, values⟩ :=
    started.updating.run serves (Client.run_effects Operation.IsUpdate programs run)
  have idle : Outstanding (phases config) key trace [] := by
    refine .none (fun c change working => ?_)
    rw [started.idle c] at working
    cases working
  have value := values key index record [] present idle
  rw [List.nil_append] at value
  have found : table.find codec last.shared.memory key = _ := updating.holds.find serves key
  rw [found, value]
  rfl

/-- Both clients increment the same record. -/
def incrementStart : Config Bool (Shared (Node UInt8)) (Client UInt8 (UInt8 × UInt8) Unit) :=
  starting (twoRecordsAfter [(1, 1)])
    (fun _ => [.updateWithLock 1 (fun record => ((), (record.1, record.2 + 1)))])

/-- Both have looked the record up before the first one takes the semaphore. -/
theorem no_update_lost_increments :
    ∃ trace last, Run (Client.Steps twoRecords .twoBytes) incrementStart trace last ∧
      twoRecords.find .twoBytes last.shared.memory 1 = some (.ok (some (1, 3))) := by
  obtain ⟨records, holds, _⟩ := twoRecordsAfter_holds [(1, 1)]
  have stored := (holds.find twoRecords_serves 1).symm
  have initial : twoRecords.find .twoBytes (twoRecordsAfter [(1, 1)]) 1 =
      some (.ok (some (1, 1))) := by decide +kernel
  rw [initial] at stored
  obtain ⟨⟨index, record⟩, present, same⟩ :=
    Option.map_eq_some_iff.mp (Except.ok.inj (Option.some.inj stored))
  cases same
  obtain ⟨trace, last, summed, run⟩ := exists_run (Client.next twoRecords .twoBytes)
    (fun _ _ => true) incrementStart
    [false, false, true, true, false, false, false, false, true, true, true, true, false, true]
    (fun trace _ =>
      decide ((completed 1 trace).foldl (fun value f => f value) ((1, 1) : UInt8 × UInt8) = (1, 3)))
    (by decide +kernel)
  have calls : ∀ c, (incrementStart.client c).Calls Operation.IsUpdate := by
    intro c
    apply Client.ofCalls_calls
    intro operation member
    rw [List.mem_singleton.mp member]
    trivial
  have final := no_update_lost twoRecords_serves records incrementStart last trace
    (holds.started _) calls run.unguarded 1 index (1, 1) present
  rw [of_decide_eq_true summed] at final
  exact ⟨trace, last, run.unguarded, final⟩

end InMemoryTable
