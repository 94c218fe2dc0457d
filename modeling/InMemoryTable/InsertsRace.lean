import InMemoryTable.InsertsInterleaved

/-! Which of several insertions of one key succeeds. -/
namespace InMemoryTable
open Interleaving Transition

variable {K T R B ι : Type} [DecidableEq K] [TableRecord T K] {table : Table K B}
  {codec : Bincode T} {must : T → Prop} {capacity recordSize : Nat} {shared after : Shared B}
  {config last : Phases ι K T R B} {label : ι × Event K T R}

/-- The answer that a client is about to return. -/
def Phase.answer : Phase K T R → Option (Operation K T R × Reply T R)
  | .unlock _ (.reply operation answer) | .reply operation answer => some (operation, answer)
  | _ => none

def Event.answer : Event K T R → Option (Operation K T R × Reply T R)
  | .replied operation answer => some (operation, answer)
  | _ => none

/-- A successful insertion of `key`. -/
def wins (key : K) : Operation K T R × Reply T R → Bool
  | (.insert record, .inserted (.ok _)) => decide (TableRecord.key record = key)
  | _ => false

/-- An insertion of `key`, whatever became of it. -/
def inserts (key : K) : Operation K T R × Reply T R → Bool
  | (.insert record, _) => decide (TableRecord.key record = key)
  | _ => false

/-- How many insertions of `key` have returned. -/
def returnedInserts (key : K) (trace : List (ι × Event K T R)) : Nat :=
  trace.countP (fun label => label.2.answer.any (inserts key))

/-- How many insertions of `key` have returned a success. -/
def okInserts (key : K) (trace : List (ι × Event K T R)) : Nat :=
  trace.countP (fun label => label.2.answer.any (wins key))

/-- The client is about to return that it inserted `key`. -/
def Phase.Winning (key : K) (phase : Phase K T R) : Prop := phase.answer.any (wins key) = true

/-- What a step of a client that inserts means for the race for one key: the
step wins it, announces that it was won, or does neither. -/
inductive RaceEffect (table : Table K B) (key : K) (memory : TableMemory B) (phase : Phase K T R)
    (event : Event K T R) (memory' : TableMemory B) (next : Phase K T R) : Prop where
  | won : table.Absent memory key → table.Present memory' key → next.Winning key →
      event.answer.any (wins key) = false →
      RaceEffect table key memory phase event memory' next
  | announced :
      table.primaryKeys.get memory'.index key = table.primaryKeys.get memory.index key →
      phase.Winning key → ¬ next.Winning key → event.answer.any (wins key) = true →
      RaceEffect table key memory phase event memory' next
  | neither :
      table.primaryKeys.get memory'.index key = table.primaryKeys.get memory.index key →
      (next.Winning key ↔ phase.Winning key) → event.answer.any (wins key) = false →
      RaceEffect table key memory phase event memory' next

theorem InsertStep.race {phase next : Phase K T R} {event : Event K T R}
    (step : InsertStep table codec shared phase event after next)
    (distinct : table.Distinct capacity recordSize shared.memory)
    (cleared : phase.Cleared table codec must shared.memory) (key : K) :
    RaceEffect table key shared.memory phase event after.memory next := by
  cases step with
  | @linked record index semNum result block linked =>
    obtain ⟨absent, room⟩ := cleared
    obtain ⟨rfl, _, present, others⟩ := distinct.link absent room linked
    by_cases same : TableRecord.key record = key
    · subst same
      exact .won absent present (decide_eq_true rfl) rfl
    · refine .neither (others key (Ne.symm same)) ?_ rfl
      simp [Phase.Winning, Phase.answer, wins, Except.map, same]
  | @replied record answer =>
    cases won : wins key (.insert record, answer) with
    | true =>
      refine .announced rfl won ?_ won
      intro winning
      cases winning
    | false => exact .neither rfl (by simp [Phase.Winning, Phase.answer, won]) won
  | _ => exact .neither rfl Iff.rfl rfl

/-- The state of the race for `key` after the steps `past`: not yet won, won
and announced, or won by one client that has not returned yet. -/
inductive Race (table : Table K B) (key : K) (past : List (ι × Event K T R))
    (config : Phases ι K T R B) : Prop where
  | undecided : table.Absent config.shared.memory key → okInserts key past = 0 →
      (∀ c, ¬ (config.client c).Winning key) → Race table key past config
  | won : table.Present config.shared.memory key → okInserts key past = 0 →
      (∃ c, (config.client c).Winning key) →
      (∀ c d, (config.client c).Winning key → (config.client d).Winning key → c = d) →
      Race table key past config
  | announced : table.Present config.shared.memory key → okInserts key past = 1 →
      (∀ c, ¬ (config.client c).Winning key) → Race table key past config

theorem okInserts_silent {key : K} {past : List (ι × Event K T R)} {label : ι × Event K T R}
    (silent : label.2.answer.any (wins key) = false) :
    okInserts key (past ++ [label]) = okInserts key past := by
  simp [okInserts, silent]

theorem okInserts_told {key : K} {past : List (ι × Event K T R)} {label : ι × Event K T R}
    (told : label.2.answer.any (wins key) = true) :
    okInserts key (past ++ [label]) = okInserts key past + 1 := by
  simp [okInserts, told]

omit [TableRecord T K] in
theorem Table.Present.not_absent {memory : TableMemory B} {key : K}
    (present : table.Present memory key) : ¬ table.Absent memory key := by
  obtain ⟨position, found⟩ := present
  intro absent
  cases found.symm.trans absent

/-! ### Insertions that have an answer -/

/-- The client is about to return from an insertion of `key`. -/
def Phase.Settled (key : K) (phase : Phase K T R) : Prop := phase.answer.any (inserts key) = true

omit [DecidableEq K] [TableRecord T K] in
/-- A number of the set is never refused. -/
theorem Table.lockTable_ne_error (table : Table K B) {values : Semaphores} {e : InMemoryTableError}
    (valid : table.semaphores.tableNumber < table.semaphores.stripes) :
    table.semaphores.lockTable (Semaphores.lock table.semaphores.stripes values) ≠ .error e := by
  obtain ⟨locked, same⟩ := Semaphores.lock_ok_of_lt values valid
  rw [table.semaphores.lockTable_ok _ same]
  intro failed
  cases failed

/-- An insertion of `key` that is able to store its record returns only when the
key is in the index. -/
theorem InsertStep.settle {phase next : Phase K T R} {event : Event K T R} {key : K}
    (step : InsertStep table codec shared phase event after next)
    (valid : table.semaphores.tableNumber < table.semaphores.stripes)
    (distinct : table.Distinct capacity recordSize shared.memory)
    (cleared : phase.Cleared table codec (fun record => TableRecord.key record = key) shared.memory)
    (settled : next.Settled key) : phase.Settled key ∨ table.Present after.memory key := by
  cases step with
  | @duplicated record position found =>
    obtain rfl : TableRecord.key record = key := of_decide_eq_true settled
    exact .inr ⟨position, found⟩
  | refused refused => exact absurd refused (table.lockTable_ne_error valid)
  | @rejected record e semNum failed =>
    obtain rfl : TableRecord.key record = key := of_decide_eq_true settled
    rcases distinct.present_or_absent (TableRecord.key record) with present | absent
    · exact .inr present
    · obtain ⟨data, encoded, _⟩ := cleared.2 rfl absent
      cases failed.symm.trans encoded
  | @full record data e slots semNum refused =>
    obtain rfl : TableRecord.key record = key := of_decide_eq_true settled
    rcases distinct.present_or_absent (TableRecord.key record) with present | absent
    · exact .inr present
    · obtain ⟨encoded, _, storable⟩ := cleared
      obtain ⟨data', encoded', fits, room⟩ := storable rfl absent
      cases encoded.symm.trans encoded'
      obtain ⟨_, _, stored, _⟩ := distinct.slots.wellFormed.insert_ok room fits
      cases stored.symm.trans refused
  | @linked record index semNum result block linked =>
    obtain rfl : TableRecord.key record = key := of_decide_eq_true settled
    obtain ⟨absent, room⟩ := cleared
    obtain ⟨_, _, present, _⟩ := distinct.link absent room linked
    exact .inr present
  | unlocked => exact .inl settled
  | _ => cases settled

theorem InsertStep.told {phase next : Phase K T R} {event : Event K T R} {key : K}
    (step : InsertStep table codec shared phase event after next)
    (told : event.answer.any (inserts key) = true) : phase.Settled key := by
  cases step with
  | replied => exact told
  | _ => cases told

/-- A key stays in the index. -/
theorem RaceEffect.present {phase next : Phase K T R} {event : Event K T R} {key : K}
    (race : RaceEffect table key shared.memory phase event after.memory next)
    (present : table.Present shared.memory key) : table.Present after.memory key := by
  cases race with
  | won absent => exact absurd absent present.not_absent
  | announced same =>
    rw [Table.Present, same]
    exact present
  | neither same =>
    rw [Table.Present, same]
    exact present

omit [DecidableEq K] [TableRecord T K] in
theorem Phase.operation_of_answer {phase : Phase K T R} {operation : Operation K T R}
    {answer : Reply T R} (answered : phase.answer = some (operation, answer)) :
    phase.operation = some operation := by
  cases phase with
  | unlock semNum after =>
    cases after with
    | reply operation' answer' =>
      cases answered
      rfl
    | many updater keys rest found => cases answered
  | reply operation' answer' =>
    cases answered
    rfl
  | _ => cases answered

/-- A client that is about to return a success is in an insertion of the key. -/
theorem Phase.Winning.operation {phase : Phase K T R} {key : K} (winning : phase.Winning key) :
    ∃ record, phase.operation = some (.insert record) ∧ TableRecord.key record = key := by
  obtain ⟨⟨operation, answer⟩, answered, won⟩ := (Option.any_eq_true _ _).mp winning
  rw [Phase.operation_of_answer answered]
  unfold wins at won
  split at won
  · rename_i record _ same
    cases same
    exact ⟨record, rfl, of_decide_eq_true won⟩
  · cases won

theorem Started.race {records : Records K T} (serves : table.Serves capacity)
    (started : Started table codec capacity recordSize config records) {key : K}
    (absent : key ∉ records) : Race table key [] config := by
  refine .undecided ?_ rfl (fun c => ?_)
  · rw [Table.Absent, started.holds.lookup_eq serves.buckets,
      Finmap.lookup_eq_none.mpr absent]
    rfl
  · rw [started.idle c]
    intro winning
    cases winning

/-- Whoever has returned from an insertion of `key`, or is about to, finds it in
the index. -/
structure Delivered (table : Table K B) (key : K) (past : List (ι × Event K T R))
    (config : Phases ι K T R B) : Prop where
  settled : ∀ c, (config.client c).Settled key → table.Present config.shared.memory key
  told : ∀ label ∈ past, label.2.answer.any (inserts key) = true →
    table.Present config.shared.memory key

theorem Started.delivered {records : Records K T}
    (started : Started table codec capacity recordSize config records) (key : K) :
    Delivered table key [] config where
  settled c settled := by
    rw [started.idle c] at settled
    cases settled
  told := by simp

variable [DecidableEq ι]

theorem Race.step {key : K} {past : List (ι × Event K T R)} (race : Race table key past config)
    (inserting : Inserting table codec must capacity recordSize config)
    (moves : Step (Effect table codec Operation.IsInsert) config label last) :
    Race table key (past ++ [label]) last := by
  cases moves with
  | @move c event shared phase effect =>
    cases (effect.insertStep (inserting.within c)).race inserting.distinct (inserting.cleared c)
      key with
    | won absent present winning silent =>
      cases race with
      | undecided _ none nobody =>
        refine .won present ((okInserts_silent silent).trans none)
          ⟨c, by rwa [Config.moved_self]⟩ ?_
        exact config.moved_unique c shared phase (fun d _ first => absurd first (nobody d))
          (fun _ d _ => nobody d)
      | won present' => exact absurd absent present'.not_absent
      | announced present' => exact absurd absent present'.not_absent
    | announced same mine finished told =>
      cases race with
      | undecided _ _ nobody => exact absurd mine (nobody c)
      | won present none _ unique =>
        refine .announced ?_ ((okInserts_told told).trans (by rw [none])) ?_
        · rw [Table.Present, Config.moved_shared, same]
          exact present
        · exact config.moved_forall c shared phase (P := fun _ phase => ¬ phase.Winning key) finished
            (fun d different other => different (unique d c other mine))
      | announced _ _ nobody => exact absurd mine (nobody c)
    | neither same kept silent =>
      have winning : ∀ d, ((config.moved c shared phase).client d).Winning key ↔
          (config.client d).Winning key := by
        intro d
        by_cases moved : d = c
        · subst moved
          rwa [Config.moved_self]
        · rw [Config.moved_other _ _ _ _ moved]
      have count : okInserts key (past ++ [(c, event)]) = okInserts key past :=
        okInserts_silent silent
      cases race with
      | undecided absent none nobody =>
        refine .undecided ?_ (count.trans none) (fun d => by rw [winning]; exact nobody d)
        rw [Table.Absent, Config.moved_shared, same]
        exact absent
      | won present none some unique =>
        refine .won ?_ (count.trans none) (by simpa only [winning] using some)
          (by simpa only [winning] using unique)
        rw [Table.Present, Config.moved_shared, same]
        exact present
      | announced present one nobody =>
        refine .announced ?_ (count.trans one) (fun d => by rw [winning]; exact nobody d)
        rw [Table.Present, Config.moved_shared, same]
        exact present

theorem Delivered.step {key : K} {past : List (ι × Event K T R)}
    (delivered : Delivered table key past config)
    (inserting : Inserting table codec (fun record => TableRecord.key record = key) capacity
      recordSize config)
    (valid : table.semaphores.tableNumber < table.semaphores.stripes)
    (moves : Step (Effect table codec Operation.IsInsert) config label last) :
    Delivered table key (past ++ [label]) last := by
  cases moves with
  | @move c event shared phase effect =>
    have step := effect.insertStep (inserting.within c)
    have race := step.race inserting.distinct (inserting.cleared c) key
    constructor
    · refine config.moved_forall c shared phase
        (P := fun _ phase => phase.Settled key → table.Present shared.memory key) ?_ ?_
      · intro settled
        rcases step.settle valid inserting.distinct (inserting.cleared c) settled with
          before | present
        · exact race.present (delivered.settled c before)
        · exact present
      · intro d _ settled
        exact race.present (delivered.settled d settled)
    · intro label member told
      rcases List.mem_append.mp member with member | member
      · exact race.present (delivered.told label member told)
      · cases List.mem_singleton.mp member
        exact race.present (delivered.settled c (step.told told))

section Guards
variable {allowed : Phases ι K T R B → ι × Event K T R → Prop} {trace : List (ι × Event K T R)}

theorem Race.run {key : K} (race : Race table key [] config)
    (inserting : Inserting table codec must capacity recordSize config)
    (entitled : ∀ {config label}, allowed config label → ∀ record,
      label.2 = .locked (.insert record) → Entitled table codec must config.shared.memory record)
    (run : Run (Guarded (Step (Effect table codec Operation.IsInsert)) allowed) config trace last) :
    Race table key trace last := by
  have both := run.history (P := fun past config =>
      Race table key past config ∧ Inserting table codec must capacity recordSize config)
    (fun ⟨race, inserting⟩ stepped =>
      ⟨race.step inserting stepped.1, inserting.step stepped.1 (entitled stepped.2)⟩)
    [] ⟨race, inserting⟩
  exact both.1

theorem Delivered.run {key : K} (delivered : Delivered table key [] config)
    (valid : table.semaphores.tableNumber < table.semaphores.stripes)
    (inserting : Inserting table codec (fun record => TableRecord.key record = key) capacity
      recordSize config)
    (entitled : ∀ {config label}, allowed config label → ∀ record,
      label.2 = .locked (.insert record) →
      Entitled table codec (fun record => TableRecord.key record = key) config.shared.memory record)
    (run : Run (Guarded (Step (Effect table codec Operation.IsInsert)) allowed) config trace last) :
    Delivered table key trace last := by
  have both := run.history (P := fun past config => Delivered table key past config ∧
      Inserting table codec (fun record => TableRecord.key record = key) capacity recordSize config)
    (fun ⟨delivered, inserting⟩ stepped =>
      ⟨delivered.step inserting valid stepped.1, inserting.step stepped.1 (entitled stepped.2)⟩)
    [] ⟨delivered, inserting⟩
  exact both.1

end Guards

/-- Under concurrent insertions keys stay unique and each new key is inserted at
most once, as long as every insertion that takes the semaphore and can store its
record still finds its key absent. If it can always be stored while it is
absent, then a new key is inserted exactly once when the calls for it have
returned. An insertion that does not find its key absent goes on to link it twice. -/
theorem inserts_keep_keys_unique (serves : table.Serves capacity) (records : Records K T)
    (config : Config ι (Shared B) (Client K T R))
    (started : Started table codec capacity recordSize (phases config) records)
    (programs : ∀ c, (config.client c).Calls Operation.IsInsert) :
    (∀ trace last, Run (Guarded (Client.Steps table codec)
        (fun config label => StillAbsent table codec (phases config) label)) config trace last →
      table.primaryKeys.UniqueKeys last.shared.memory.index ∧
      ∀ key ∉ records, okInserts key trace ≤ 1) ∧
    (table.semaphores.tableNumber < table.semaphores.stripes →
      ∀ key ∉ records, ∀ trace last, Run (Guarded (Client.Steps table codec)
        (fun config label => StillAbsent table codec (phases config) label ∧
          StoresKey table codec key (phases config) label)) config trace last →
      0 < returnedInserts key trace →
      (∀ c record, (last.client c).phase.operation = some (.insert record) →
        TableRecord.key record ≠ key) →
      okInserts key trace = 1) ∧
    ∀ trace middle, Run (Guarded (Client.Steps table codec)
        (fun config label => StillAbsent table codec (phases config) label)) config trace middle →
      ∀ label after, Client.Steps table codec middle label after →
      ¬ StillAbsent table codec (phases middle) label →
      ∃ more last, Run (Client.Steps table codec) after more last ∧
        ¬ table.primaryKeys.UniqueKeys last.shared.memory.index := by
  have kept : ∀ {trace} {last : Config ι (Shared B) (Client K T R)},
      Run (Guarded (Client.Steps table codec)
        (fun config label => StillAbsent table codec (phases config) label)) config trace last →
      Inserting table codec (fun _ => False) capacity recordSize (phases last) ∧
        ∀ key ∉ records, Race table key trace (phases last) := by
    intro trace last run
    have run := Client.run_effect Operation.IsInsert _ programs run
    refine ⟨(started.inserting serves).run StillAbsent.entitled run, fun key new => ?_⟩
    exact (started.race serves new).run (started.inserting serves) StillAbsent.entitled run
  refine ⟨?_, ?_, ?_⟩
  · intro trace last run
    obtain ⟨inserting, races⟩ := kept run
    obtain ⟨entries, refines, nodup⟩ := inserting.distinct.indexed
    refine ⟨refines.uniqueKeys_iff.mpr nodup, fun key new => ?_⟩
    cases races key new with
    | undecided _ none => omega
    | won _ none => omega
    | announced _ one => omega
  · intro valid key new trace last run returned finished
    obtain ⟨label, member, told⟩ := List.countP_pos_iff.mp returned
    have run := Client.run_effect Operation.IsInsert (fun config label =>
      StillAbsent table codec config label ∧ StoresKey table codec key config label) programs run
    have race := (started.race serves new).run (started.inserting serves)
      (fun guarded _ locked => guarded.2.entitled guarded.1 locked) run
    have delivered := (started.delivered key).run valid (started.inserting serves)
      (fun guarded _ locked => guarded.2.entitled guarded.1 locked) run
    have present := delivered.told label member told
    cases race with
    | undecided absent => exact absurd absent present.not_absent
    | won _ _ winner =>
      obtain ⟨d, winning⟩ := winner
      obtain ⟨record', current, same'⟩ := winning.operation
      exact absurd same' (finished d record' current)
    | announced _ one => exact one
  · intro trace middle run label after stepped stale
    simp only [StillAbsent, not_forall] at stale
    obtain ⟨record, locked, storable, stale⟩ := stale
    obtain ⟨c, event⟩ := label
    cases locked
    exact (kept run).1.link_again stepped storable stale

/-! ### Two clients that insert the same key -/

/-- The record of an insertion that takes the semaphore of the table. -/
def Event.inserting : Event K T R → Option T
  | .locked (.insert record) => some record
  | _ => none

def sameKeyStart : Config Bool (Shared (Node UInt8)) (Client UInt8 (UInt8 × UInt8) Unit) :=
  starting (twoRecordsAfter []) (fun c => if c then [.insert (5, 1)] else [.insert (5, 2)])

theorem sameKeyStart_calls (c : Bool) : (sameKeyStart.client c).Calls Operation.IsInsert := by
  cases c <;> refine Client.ofCalls_calls (fun operation member => ?_) <;>
    rw [List.mem_singleton.mp member] <;> trivial

/-- Client `false` has returned before client `true` looks the key up. -/
theorem inserts_keep_keys_unique_sample :
    ∃ trace last, Run (Guarded (Client.Steps twoRecords .twoBytes)
        (fun config label => StillAbsent twoRecords .twoBytes (phases config) label ∧
          StoresKey twoRecords .twoBytes 5 (phases config) label)) sameKeyStart trace last ∧
      (∀ c, (last.client c).replies.length = 1) ∧ okInserts 5 trace = 1 ∧
      twoRecords.primaryKeys.UniqueKeys last.shared.memory.index := by
  obtain ⟨records, holds, _⟩ := twoRecordsAfter_holds []
  have new : (5 : UInt8) ∉ records := by
    have lookup := (holds.lookup_eq twoRecords_serves.buckets 5).symm
    have initial : twoRecords.primaryKeys.get (twoRecordsAfter []).index 5 = some none := by
      decide +kernel
    rw [initial] at lookup
    exact Finmap.lookup_eq_none.mp (Option.map_eq_none_iff.mp (Option.some.inj lookup))
  obtain ⟨trace, last, finished, run⟩ := exists_run (Client.next twoRecords .twoBytes)
    (fun config label => label.2.inserting.all (fun record => decide (
      twoRecords.Absent config.shared.memory record.1 ∧
      2 ≤ config.shared.memory.slots.maxData ∧
      config.shared.memory.slots.header.count < config.shared.memory.slots.header.capacity)))
    sameKeyStart [false, false, false, false, false, false, false, false, true, true, true]
    (fun trace last => decide (0 < returnedInserts 5 trace) &&
      (last.client false).phase.isIdle && (last.client true).phase.isIdle &&
      (last.client false).replies.length == 1 && (last.client true).replies.length == 1)
    (by decide +kernel)
  simp only [Bool.and_eq_true, decide_eq_true_eq, beq_iff_eq] at finished
  obtain ⟨⟨⟨⟨returned, first⟩, second⟩, once⟩, once'⟩ := finished
  have run : Run (Guarded (Client.Steps twoRecords .twoBytes)
      (fun config label => StillAbsent twoRecords .twoBytes (phases config) label ∧
        StoresKey twoRecords .twoBytes 5 (phases config) label)) sameKeyStart trace last := by
    refine run.mono (fun stepped =>
      ⟨stepped.1, fun record locked _ => ?_, fun record locked _ _ => ?_⟩)
    · have fine := stepped.2
      simp only [locked] at fine
      exact (of_decide_eq_true fine).1
    · have fine := stepped.2
      simp only [locked] at fine
      exact ⟨_, rfl, (of_decide_eq_true fine).2⟩
  have unique := inserts_keep_keys_unique twoRecords_serves records sameKeyStart (holds.started _)
    sameKeyStart_calls
  refine ⟨trace, last, run, fun c => by cases c <;> assumption, ?_,
    (unique.1 trace last (run.mono (fun stepped => ⟨stepped.1, stepped.2.1⟩))).1⟩
  apply unique.2.1 (by decide) 5 new trace last run returned
  intro d record current
  have idle : (last.client d).phase.isIdle = true := by cases d <;> assumption
  rw [Phase.isIdle_iff.mp idle] at current
  cases current

/-- Both clients have looked the key up before the first one takes the semaphore. -/
theorem inserts_of_one_key_race :
    (¬ ∀ trace last, Run (Client.Steps twoRecords .twoBytes) sameKeyStart trace last →
      twoRecords.primaryKeys.UniqueKeys last.shared.memory.index) ∧
    ¬ ∀ trace last, Run (Client.Steps twoRecords .twoBytes) sameKeyStart trace last →
      (∀ c, (last.client c).replies.length = 1) → okInserts 5 trace = 1 := by
  obtain ⟨trace, last, raced, run⟩ := exists_run (Client.next twoRecords .twoBytes)
    (fun _ _ => true) sameKeyStart
    [false, false, true, true, false, false, false, false, false, false, true, true, true, true,
      true, true]
    (fun trace last => decide (okInserts 5 trace = 2 ∧
      (last.client false).replies.length = 1 ∧ (last.client true).replies.length = 1 ∧
      last.shared.memory.index.slots.Occupied 0 ∧ last.shared.memory.index.slots.Occupied 1 ∧
      (twoRecords.primaryKeys.readNode last.shared.memory.index 0).map Node.key = some 5 ∧
      (twoRecords.primaryKeys.readNode last.shared.memory.index 1).map Node.key = some 5))
    (by decide +kernel)
  obtain ⟨twice, first, second, used, used', read, read'⟩ := of_decide_eq_true raced
  constructor
  · intro unique
    obtain ⟨node, read, key⟩ := Option.map_eq_some_iff.mp read
    obtain ⟨node', read', key'⟩ := Option.map_eq_some_iff.mp read'
    exact absurd (unique trace last run.unguarded used used' read read' (key.trans key'.symm))
      (by decide)
  · intro once
    have one := once trace last run.unguarded (fun c => by cases c <;> assumption)
    omega

end InMemoryTable
