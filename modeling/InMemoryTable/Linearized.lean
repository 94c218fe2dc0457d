import InMemoryTable.Start
import InMemoryTable.Stock

/-! Clients that search, insert and update at the same time, where no two of them
insert the same key: every interleaving is a run of the map with atomic calls. -/
namespace InMemoryTable
open Interleaving Transition Linearization

variable {K T R B ι : Type}

/-! ### What the clients rely on -/

/-- Clients do not remove, and a key is inserted by its owner only, into a table
whose semaphore exists. -/
def Operation.Owned [TableRecord T K] (table : Table K B) (owner : K → ι) (c : ι) :
    Operation K T R → Prop
  | .insert record => owner (TableRecord.key record) = c ∧
      table.semaphores.tableNumber < table.semaphores.stripes
  | .remove _ => False
  | _ => True

namespace Phase

/-- The record of an insertion that has not found its key. -/
def storing : Phase K T R → Option T
  | .lock (.insert record) | .locked (.insert record) | .insertInside record _
  | .insertIndex record _ => some record
  | _ => none

/-- The key and the slot that a call has looked up. -/
def located : Phase K T R → Option (K × Nat)
  | .findRead key index => some (key, index)
  | .lock (.update change index) | .locked (.update change index) | .updateWrite change index _ =>
    some (change.key, index)
  | _ => none

/-- The record that is stored and not linked. -/
def filling : Phase K T R → Option (T × Nat)
  | .insertIndex record index => some (record, index)
  | _ => none

/-- An insertion under the semaphore of the table. -/
def inside : Phase K T R → Bool
  | .locked (.insert _) | .insertInside _ _ | .insertIndex _ _ => true
  | _ => false

/-- What a client has learned of the map is still so. -/
structure Ready [DecidableEq K] [TableRecord T K] (codec : Bincode T) (records : Records K T)
    (phase : Phase K T R) : Prop where
  absent : ∀ record, phase.storing = some record → TableRecord.key record ∉ records
  encoded : ∀ record data, phase = .insertInside record data → codec.encode record = .ok data
  located : ∀ key index, phase.located = some (key, index) →
    ∃ record, records.lookup key = some (index, record)
  copied : ∀ change index record, phase = .updateWrite change index record →
    records.lookup change.key = some (index, record)

end Phase

section Ready
variable [DecidableEq K] [TableRecord T K] {table : Table K B} {codec : Bincode T}
  {capacity recordSize : Nat} {records later : Records K T} {phase other : Phase K T R}

namespace Phase.Ready

/-- An insertion on its way. -/
theorem of_storing (located : phase.located = none)
    (absent : ∀ record, phase.storing = some record → TableRecord.key record ∉ records)
    (encoded : ∀ record data, phase = .insertInside record data → codec.encode record = .ok data) :
    phase.Ready codec records where
  absent := absent
  encoded := encoded
  located key index found := by
    rw [located] at found
    cases found
  copied change index record writing := by
    rw [writing] at located
    cases located

/-- A call that has found its key. -/
theorem of_located (storing : phase.storing = none)
    (located : ∀ key index, phase.located = some (key, index) →
      ∃ record, records.lookup key = some (index, record))
    (copied : ∀ change index record, phase = .updateWrite change index record →
      records.lookup change.key = some (index, record)) : phase.Ready codec records where
  absent record working := by
    rw [storing] at working
    cases working
  encoded record data inside := by
    rw [inside] at storing
    cases storing
  located := located
  copied := copied

theorem of_none (storing : phase.storing = none) (located : phase.located = none) :
    phase.Ready codec records := by
  refine of_storing located (fun record working => ?_) (fun record data inside => ?_)
  · rw [storing] at working
    cases working
  · rw [inside] at storing
    cases storing

theorem after (after : After K T R) : after.phase.Ready codec records := by
  cases after with
  | reply operation answer => exact .of_none rfl rfl
  | many updater keys rest found => cases rest <;> exact .of_none rfl rfl

theorem start (operation : Operation K T R) : operation.start.Ready codec records := by
  cases operation with
  | updateMany keys updater => exact .after _
  | _ => exact .of_none rfl rfl

end Phase.Ready

/-- How a step of a client in `phase` changes the map, for the other clients. -/
inductive Records.Grows (records : Records K T) (phase : Phase K T R) : Records K T → Prop where
  | same : Grows records phase records
  | replaced {change : Update K T R} {index : Nat} {record written : T} :
      phase = .updateWrite change index record →
      records.lookup change.key = some (index, record) →
      Grows records phase (records.insert change.key (index, written))
  | added {record : T} {index : Nat} : phase = .insertIndex record index →
      TableRecord.key record ∉ records →
      Grows records phase (records.insert (TableRecord.key record) (index, record))

/-- The other clients insert other keys, and do not write to the same record. -/
theorem Phase.Ready.of_grows (ready : other.Ready codec records)
    (grows : records.Grows phase later)
    (owned : ∀ record index record', phase = .insertIndex record index →
      other.storing = some record' → TableRecord.key record' ≠ (TableRecord.key record : K))
    (exclusive : ∀ change index record change' record', phase = .updateWrite change index record →
      other ≠ .updateWrite change' index record') :
    other.Ready codec later := by
  cases grows with
  | same => exact ready
  | @replaced change index record written writing found =>
    constructor
    · intro record' storing member
      rcases Finmap.mem_insert.mp member with same | member
      · exact ready.absent record' storing (same ▸ Finmap.mem_of_lookup_eq_some found)
      · exact ready.absent record' storing member
    · exact ready.encoded
    · intro key i located
      obtain ⟨value, lookup⟩ := ready.located key i located
      by_cases same : key = change.key
      · subst same
        cases found.symm.trans lookup
        exact ⟨written, Finmap.lookup_insert _⟩
      · exact ⟨value, by rw [Finmap.lookup_insert_of_ne _ same, lookup]⟩
    · intro change' i record' copied
      have lookup := ready.copied change' i record' copied
      by_cases same : change'.key = change.key
      · rw [same] at lookup
        cases found.symm.trans lookup
        exact absurd copied (exclusive change index record change' record writing)
      · rw [Finmap.lookup_insert_of_ne _ same, lookup]
  | @added record index linking absent =>
    have kept : ∀ {key : K} {entry : Nat × T}, records.lookup key = some entry →
        (records.insert (TableRecord.key record) (index, record)).lookup key = some entry := by
      intro key entry lookup
      have different : key ≠ TableRecord.key record := by
        rintro rfl
        exact absent (Finmap.mem_of_lookup_eq_some lookup)
      rw [Finmap.lookup_insert_of_ne _ different, lookup]
    constructor
    · intro record' storing member
      rcases Finmap.mem_insert.mp member with same | member
      · exact owned record index record' linking storing same
      · exact ready.absent record' storing member
    · exact ready.encoded
    · intro key i located
      obtain ⟨value, lookup⟩ := ready.located key i located
      exact ⟨value, kept lookup⟩
    · intro change i record' copied
      exact kept (ready.copied change i record' copied)

/-- What a step of a client establishes. -/
structure Instanced (table : Table K B) (codec : Bincode T) (capacity recordSize : Nat)
    (stock : Stock K T) (filled : Option (T × Nat)) (phase : Phase K T R) (event : Event K T R)
    (memory : TableMemory B) (later : Records K T) (filled' : Option (T × Nat))
    (next : Phase K T R) : Prop where
  filling : table.Filling codec capacity recordSize memory { stock with records := later } filled'
  ready : next.Ready codec later
  sees : (Stock.object codec capacity recordSize).toObject.Sees stock phase.place event.shown
    { stock with records := later } next.place
  grows : stock.records.Grows phase later
  filled : filled' = filled ∧ phase.inside = false ∧ next.filling = none ∨
    phase.inside = true ∧ filled' = next.filling

variable {shared after : Shared B} {calls : Operation K T R → Prop} {next : Phase K T R}
  {event : Event K T R} {stock : Stock K T} {filled filled' : Option (T × Nat)}

/-- A step that the object does not see. -/
theorem Instanced.unseen {memory : TableMemory B}
    (filling : table.Filling codec capacity recordSize memory stock filled')
    (ready : next.Ready codec stock.records) (hidden : event.shown = none)
    (still : next.place = phase.place)
    (kept : filled' = filled ∧ phase.inside = false ∧ next.filling = none ∨
      phase.inside = true ∧ filled' = next.filling) :
    Instanced table codec capacity recordSize stock filled phase event memory stock.records
      filled' next where
  filling := filling
  ready := ready
  sees := by
    rw [hidden]
    exact .nothing rfl still
  grows := .same
  filled := kept

/-- A step at which a call, or a part of it, takes effect. -/
theorem Instanced.instant {request : Request K T R} {left : After K T R} {memory : TableMemory B}
    (filling : table.Filling codec capacity recordSize memory { stock with records := later } filled')
    (ready : next.Ready codec later) (hidden : event.shown = none)
    (running : phase.place = .running request)
    (instant : stock.Instant codec capacity recordSize request later left)
    (arrived : next.place = left.place) (grows : stock.records.Grows phase later)
    (kept : filled' = filled ∧ phase.inside = false ∧ next.filling = none ∨
      phase.inside = true ∧ filled' = next.filling) :
    Instanced table codec capacity recordSize stock filled phase event memory later filled'
      next where
  filling := filling
  ready := ready
  sees := by
    have effect : (Stock.object codec capacity recordSize).effect stock request
        { stock with records := later } left.place := ⟨later, left, instant, rfl, rfl⟩
    rw [hidden, running, arrived]
    exact .moment (.effect effect)
  grows := grows
  filled := kept

omit [DecidableEq K] [TableRecord T K] in
theorem After.filling_phase (left : After K T R) : left.phase.filling = none := by
  cases left with
  | reply operation answer => rfl
  | many updater keys rest found => cases rest <;> rfl

theorem Request.instanced {request : Request K T R} {position : Option Nat} {key : K}
    (serves : table.Serves capacity)
    (filling : table.Filling codec capacity recordSize shared.memory stock filled)
    (found : table.primaryKeys.get shared.memory.index request.key = some position)
    (stays : ∀ key, request ≠ .remove key) :
    Instanced table codec capacity recordSize stock filled (.lookup request)
      (.searched key position) shared.memory stock.records filled (request.found position) := by
  have answer := (filling.lookup_eq serves request.key).symm.trans found
  cases lookup : stock.records.lookup request.key with
  | none =>
    rw [lookup] at answer
    cases answer
    have absent : request.key ∉ stock.records := Finmap.lookup_eq_none.mp lookup
    cases request with
    | insert record =>
      exact .unseen filling (.of_storing rfl (by rintro _ ⟨⟩; exact absent) (by rintro _ _ ⟨⟩))
        rfl rfl (.inl ⟨rfl, rfl, rfl⟩)
    | find key =>
      have instant : stock.Instant (R := R) codec capacity recordSize (.find key) stock.records
          (.reply (.find key) (.found (.ok (stock.records.under key)))) := .find key
      have lookup : stock.records.lookup key = none := lookup
      rw [Records.under, lookup] at instant
      exact .instant filling (.of_none rfl rfl) rfl rfl instant rfl .same (.inl ⟨rfl, rfl, rfl⟩)
    | update change =>
      exact .instant filling (.after _) rfl rfl (.skip absent) (Phase.place_after _) .same
        (.inl ⟨rfl, rfl, After.filling_phase _⟩)
    | remove key => exact absurd rfl (stays key)
  | some entry =>
    rw [lookup] at answer
    cases answer
    have present : ∃ record, stock.records.lookup request.key = some (entry.1, record) :=
      ⟨entry.2, lookup⟩
    cases request with
    | insert record =>
      exact .instant filling (.of_none rfl rfl) rfl rfl
        (.duplicated (Finmap.mem_of_lookup_eq_some lookup)) rfl .same (.inl ⟨rfl, rfl, rfl⟩)
    | find key =>
      exact .unseen filling (.of_located rfl (by rintro _ _ ⟨⟩; exact present) (by rintro _ _ _ ⟨⟩))
        rfl rfl (.inl ⟨rfl, rfl, rfl⟩)
    | update change =>
      exact .unseen filling (.of_located rfl (by rintro _ _ ⟨⟩; exact present) (by rintro _ _ _ ⟨⟩))
        rfl rfl (.inl ⟨rfl, rfl, rfl⟩)
    | remove key => exact absurd rfl (stays key)

theorem Effect.instanced {owner : K → ι} {c : ι}
    (effect : Effect table codec (Operation.Owned table owner c) shared phase event after next)
    (within : phase.Within (Operation.Owned table owner c)) (serves : table.Serves capacity)
    (filling : table.Filling codec capacity recordSize shared.memory stock filled)
    (ready : phase.Ready codec stock.records)
    (mine : phase.inside = true → filled = phase.filling) :
    ∃ later filled', Instanced table codec capacity recordSize stock filled phase event
      after.memory later filled' next := by
  cases effect with
  | @called operation allowed =>
    refine ⟨stock.records, filled, filling, .start operation, ?_, .same, .inl ⟨rfl, rfl, ?_⟩⟩
    · rw [Phase.place_start]
      exact .moment (.called operation)
    · cases operation with
      | updateMany keys updater => exact After.filling_phase _
      | _ => rfl
  | @replied operation answer =>
    exact ⟨stock.records, filled, filling, .of_none rfl rfl, .moment .replied, .same,
      .inl ⟨rfl, rfl, rfl⟩⟩
  | @searched request position found =>
    refine ⟨stock.records, filled, Request.instanced serves filling found ?_⟩
    rintro key rfl
    exact within _ rfl
  | @found key index =>
    obtain ⟨record, lookup⟩ := ready.located key index rfl
    have instant : stock.Instant (R := R) codec capacity recordSize (.find key) stock.records
        (.reply (.find key) (.found (.ok (stock.records.under key)))) := .find key
    rw [Records.under, lookup] at instant
    rw [filling.get_eq lookup]
    exact ⟨stock.records, filled, .instant filling (.of_none rfl rfl) rfl rfl instant rfl .same
      (.inl ⟨rfl, rfl, rfl⟩)⟩
  | @refused task e refused =>
    cases task with
    | insert record =>
      obtain ⟨locked, done⟩ := Semaphores.lock_ok_of_lt shared.semaphores (within _ rfl).2
      cases (table.semaphores.lockTable_ok _ done).symm.trans refused
    | update change index =>
      obtain ⟨record, lookup⟩ := ready.located _ _ rfl
      exact absurd refused (serves.record_ne_error (filling.lt_capacity lookup))
    | remove key index => exact (within _ rfl).elim
  | @locked task =>
    cases task with
    | insert record =>
      exact ⟨stock.records, filled, .unseen filling
        (.of_storing rfl ready.absent (by rintro _ _ ⟨⟩)) rfl rfl (.inl ⟨rfl, rfl, rfl⟩)⟩
    | update change index =>
      exact ⟨stock.records, filled, .unseen filling
        (.of_located rfl ready.located (by rintro _ _ _ ⟨⟩)) rfl rfl (.inl ⟨rfl, rfl, rfl⟩)⟩
    | remove key index => exact (within _ rfl).elim
  | @rejected record e rejected =>
    have refused : stock.acceptNew codec capacity recordSize record = .error e := by
      simp only [Stock.acceptNew, rejected]
    exact ⟨stock.records, filled, .instant filling (.of_none rfl rfl) rfl rfl
      (.refused (ready.absent record rfl) refused) rfl .same (.inr ⟨rfl, mine rfl⟩)⟩
  | @insertEntered record data encoded =>
    refine ⟨stock.records, filled, .unseen filling (.of_storing rfl ready.absent ?_) rfl rfl
      (.inr ⟨rfl, mine rfl⟩)⟩
    rintro _ _ ⟨⟩
    exact encoded
  | @insertRefused record data e slots refused =>
    have nothing : filled = none := mine rfl
    subst nothing
    obtain ⟨e', rejected, same⟩ | ⟨_, _, _, same, _⟩ :=
      filling.stocked.insert_cases (ready.encoded record data rfl)
    · cases same.symm.trans refused
      exact ⟨stock.records, none, .instant filling (.of_none rfl rfl) rfl rfl
        (.refused (ready.absent record rfl) rejected) rfl .same (.inr ⟨rfl, rfl⟩)⟩
    · cases same.symm.trans refused
  | @inserted record data index slots stored =>
    have nothing : filled = none := mine rfl
    subst nothing
    exact ⟨stock.records, some (record, index), .unseen
      (filling.store (ready.encoded record data rfl) stored)
      (.of_storing rfl ready.absent (by rintro _ _ ⟨⟩)) rfl rfl (.inr ⟨rfl, rfl⟩)⟩
  | @linked record index result block linked =>
    have stored : filled = some (record, index) := mine rfl
    subst stored
    have absent := ready.absent record rfl
    obtain ⟨block', same, stocked⟩ := filling.link serves absent
    cases same.symm.trans linked
    exact ⟨_, none, .instant (.of_stocked stocked) (.of_none rfl rfl) rfl rfl
      (.inserted absent (filling.accepted record index rfl) (filling.unused record index rfl)) rfl
      (.added rfl absent) (.inr ⟨rfl, rfl⟩)⟩
  | @unread change index e failed =>
    obtain ⟨record, lookup⟩ := ready.located _ _ rfl
    cases (filling.get_eq lookup).symm.trans failed
  | @applied change index record got =>
    obtain ⟨record', lookup⟩ := ready.located _ _ rfl
    cases (filling.get_eq lookup).symm.trans got
    refine ⟨stock.records, filled, .unseen filling (.of_located rfl ready.located ?_) rfl rfl
      (.inl ⟨rfl, rfl, rfl⟩)⟩
    rintro _ _ _ ⟨⟩
    exact lookup
  | @unwritten change index record e memory failed =>
    have lookup := ready.copied change index record rfl
    obtain ⟨e', refused, same⟩ | ⟨_, _, same, _⟩ :=
      filling.update_cases lookup (change.apply record)
    · cases same.symm.trans failed
      exact ⟨stock.records, filled, .instant filling (.of_none rfl rfl) rfl rfl
        (.refuse lookup refused) rfl .same (.inl ⟨rfl, rfl, rfl⟩)⟩
    · cases same.symm.trans failed
  | @written change index record memory wrote =>
    have lookup := ready.copied change index record rfl
    obtain ⟨_, _, same⟩ | ⟨accepted, after, same, filling'⟩ :=
      filling.update_cases lookup (change.apply record)
    · cases same.symm.trans wrote
    · cases same.symm.trans wrote
      exact ⟨_, filled, .instant filling' (.of_none rfl rfl) rfl rfl (.update lookup accepted) rfl
        (.replaced rfl lookup) (.inl ⟨rfl, rfl, rfl⟩)⟩
  | @unlocked semNum left =>
    exact ⟨stock.records, filled, .unseen filling (.after left) rfl (Phase.place_after left)
      (.inl ⟨rfl, rfl, After.filling_phase left⟩)⟩
  | removeEntered => exact (within _ rfl).elim
  | removed => exact (within _ rfl).elim
  | unlinked => exact (within _ rfl).elim

end Ready

/-! ### All clients -/

namespace Phase
variable {table : Table K B} {phase : Phase K T R}

theorem holding_of_inside (inside : phase.inside = true) :
    phase.holding table = some table.semaphores.tableNumber := by
  cases phase with
  | locked task =>
    cases task with
    | insert record => rfl
    | _ => cases inside
  | insertInside record data => rfl
  | insertIndex record index => rfl
  | _ => cases inside

theorem of_filling {record : T} {index : Nat} (filling : phase.filling = some (record, index)) :
    phase = .insertIndex record index := by
  cases phase with
  | insertIndex record' index' =>
    cases filling
    rfl
  | _ => cases filling

theorem inside_of_filling {entry : T × Nat} (filling : phase.filling = some entry) :
    phase.inside = true := by
  rw [of_filling filling]
  rfl

theorem operation_of_storing {record : T} (storing : phase.storing = some record) :
    phase.operation = some (.insert record) := by
  cases phase with
  | lock task =>
    cases task with
    | insert record' =>
      cases storing
      rfl
    | _ => cases storing
  | locked task =>
    cases task with
    | insert record' =>
      cases storing
      rfl
    | _ => cases storing
  | insertInside record' data =>
    cases storing
    rfl
  | insertIndex record' index =>
    cases storing
    rfl
  | _ => cases storing

end Phase

section Runs
variable [DecidableEq K] [TableRecord T K] {table : Table K B} {codec : Bincode T}
  {capacity recordSize : Nat} {owner : K → ι}

/-- The clients call as their owners may, and all that they have learned holds of the records. -/
structure Linearizing (table : Table K B) (codec : Bincode T) (capacity recordSize : Nat)
    (owner : K → ι) (config : Phases ι K T R B) (stock : Stock K T) : Prop where
  within : ∀ c, (config.client c).Within (Operation.Owned table owner c)
  exclusive : Exclusive table config
  ready : ∀ c, (config.client c).Ready codec stock.records
  filling : ∃ filled,
    table.Filling codec capacity recordSize config.shared.memory stock filled ∧
    ∀ entry, filled = some entry ↔ ∃ c, (config.client c).filling = some entry

namespace Linearizing
variable {config : Phases ι K T R B} {stock : Stock K T}

theorem of_idle (exclusive : Exclusive table config) (idle : ∀ c, config.client c = .idle)
    (stocked : table.Stocked codec capacity recordSize config.shared.memory stock) :
    Linearizing table codec capacity recordSize owner config stock where
  within c operation current := by
    rw [idle c] at current
    cases current
  exclusive := exclusive
  ready c := by
    rw [idle c]
    exact .of_none rfl rfl
  filling := by
    refine ⟨none, .of_stocked stocked, fun entry => iff_of_false (by rintro ⟨⟩) ?_⟩
    rintro ⟨c, filling⟩
    rw [idle c] at filling
    cases filling

/-- When nobody is inside a call the memory holds the map. -/
theorem stocked (linearizing : Linearizing table codec capacity recordSize owner config stock)
    (idle : ∀ c, config.client c = .idle) :
    table.Stocked codec capacity recordSize config.shared.memory stock := by
  obtain ⟨filled, filling, storer⟩ := linearizing.filling
  cases filled with
  | none => exact filling.stocked
  | some entry =>
    obtain ⟨c, theirs⟩ := (storer entry).mp rfl
    rw [idle c] at theirs
    cases theirs

theorem same_client (linearizing : Linearizing table codec capacity recordSize owner config stock)
    {c d : ι} (first : (config.client c).inside = true) (second : (config.client d).inside = true) :
    c = d :=
  linearizing.exclusive.same_client (Phase.holding_of_inside first)
    (Phase.holding_of_inside second)

variable [DecidableEq ι] {c : ι}

theorem step (serves : table.Serves capacity)
    (linearizing : Linearizing table codec capacity recordSize owner config stock)
    {shared : Shared B} {event : Event K T R} {next : Phase K T R}
    (effect : Effect table codec (Operation.Owned table owner c) config.shared (config.client c)
      event shared next) :
    ∃ later, Linearizing table codec capacity recordSize owner (config.moved c shared next)
        { stock with records := later } ∧
      (Stock.object codec capacity recordSize).toObject.Sees stock (config.client c).place
        event.shown { stock with records := later } next.place := by
  have within := linearizing.within c
  obtain ⟨filled, filling, storer⟩ := linearizing.filling
  have mine : (config.client c).inside = true → filled = (config.client c).filling := by
    intro inside
    cases filled with
    | none =>
      cases own : (config.client c).filling with
      | none => rfl
      | some entry => exact (storer entry).mpr ⟨c, own⟩
    | some entry =>
      obtain ⟨d, theirs⟩ := (storer entry).mp rfl
      rw [← linearizing.same_client (Phase.inside_of_filling theirs) inside, theirs]
  obtain ⟨later, filled', instanced⟩ :=
    effect.instanced within serves filling (linearizing.ready c) mine
  refine ⟨later, ⟨?_, linearizing.exclusive.step (.move effect), ?_, filled', instanced.filling,
    fun entry => ?_⟩, instanced.sees⟩
  · exact Config.moved_forall
      (P := fun d (phase : Phase K T R) => phase.Within (Operation.Owned table owner d))
      _ _ _ _ (effect.within within) (fun d _ => linearizing.within d)
  · refine Config.moved_forall
      (P := fun _ (phase : Phase K T R) => phase.Ready codec later) _ _ _ _
      instanced.ready (fun d different => ?_)
    refine (linearizing.ready d).of_grows instanced.grows ?_ ?_
    · intro record index record' linking storing same
      have theirs := (linearizing.within d _ (Phase.operation_of_storing storing)).1
      have ours := (within (.insert record) (by rw [linking]; rfl)).1
      exact different (theirs.symm.trans ((congrArg owner same).trans ours))
    · intro change index record change' record' writing writing'
      refine different (linearizing.exclusive.same_client
        (x := table.semaphores.recordNumber index) ?_ ?_)
      · rw [writing']
        rfl
      · rw [writing]
        rfl
  · obtain ⟨same, outside, nothing⟩ | ⟨inside, same⟩ := instanced.filled
    · rw [same, storer]
      constructor
      · rintro ⟨d, theirs⟩
        refine ⟨d, ?_⟩
        rw [Config.moved_other]
        · exact theirs
        · rintro rfl
          cases outside.symm.trans (Phase.inside_of_filling theirs)
      · rintro ⟨d, theirs⟩
        by_cases moving : d = c
        · subst moving
          rw [Config.moved_self, nothing] at theirs
          cases theirs
        · rw [Config.moved_other _ _ _ _ moving] at theirs
          exact ⟨d, theirs⟩
    · rw [same]
      constructor
      · intro ours
        exact ⟨c, by rw [Config.moved_self, ours]⟩
      · rintro ⟨d, theirs⟩
        by_cases moving : d = c
        · subst moving
          rwa [Config.moved_self] at theirs
        · rw [Config.moved_other _ _ _ _ moving] at theirs
          exact absurd (linearizing.same_client (Phase.inside_of_filling theirs) inside) moving

/-- A client that dies leaves the map as it is; the record that it had stored and not
linked stays in its slot. -/
theorem died (linearizing : Linearizing table codec capacity recordSize owner config stock)
    (shared : Shared B) (memory : shared.memory = config.shared.memory)
    (exclusive : Exclusive table (config.moved c shared .idle)) :
    ∃ later, Linearizing table codec capacity recordSize owner (config.moved c shared .idle)
        later ∧ (Stock.object codec capacity recordSize).dies stock (config.client c).place later := by
  obtain ⟨filled, filling, storer⟩ := linearizing.filling
  rw [← memory] at filling
  have within := Config.moved_forall
    (P := fun d (phase : Phase K T R) => phase.Within (Operation.Owned table owner d))
    config c shared .idle (by rintro operation ⟨⟩) (fun d _ => linearizing.within d)
  have ready := Config.moved_forall (P := fun _ (phase : Phase K T R) =>
    phase.Ready codec stock.records) config c shared .idle (.of_none rfl rfl)
    (fun d _ => linearizing.ready d)
  cases own : (config.client c).filling with
  | none =>
    refine ⟨stock, ⟨within, exclusive, ready, filled, filling, fun entry => ?_⟩, .inl rfl⟩
    rw [storer]
    constructor
    · rintro ⟨d, theirs⟩
      refine ⟨d, ?_⟩
      rw [Config.moved_other]
      · exact theirs
      · rintro rfl
        cases own.symm.trans theirs
    · rintro ⟨d, theirs⟩
      by_cases dead : d = c
      · subst dead
        rw [Config.moved_self] at theirs
        cases theirs
      · rw [Config.moved_other _ _ _ _ dead] at theirs
        exact ⟨d, theirs⟩
  | some entry =>
    obtain ⟨record, index⟩ := entry
    obtain rfl := (storer (record, index)).mpr ⟨c, own⟩
    refine ⟨stock.lose index, ⟨within, exclusive, ready, none, filling.lose, fun entry => ?_⟩,
      .inr ⟨record, index, ?_, ?_, filling.accepted record index rfl,
        filling.unused record index rfl, rfl⟩⟩
    · refine iff_of_false (by rintro ⟨⟩) ?_
      rintro ⟨d, theirs⟩
      by_cases dead : d = c
      · subst dead
        rw [Config.moved_self] at theirs
        cases theirs
      · rw [Config.moved_other _ _ _ _ dead] at theirs
        exact dead (linearizing.same_client (Phase.inside_of_filling theirs)
          (Phase.inside_of_filling own))
    · rw [Phase.of_filling own]
      rfl
    · exact (linearizing.ready c).absent record (by rw [Phase.of_filling own]; rfl)

end Linearizing

variable [DecidableEq ι]

/-- Linearizability: every interleaving of clients of which no two insert the same
key, and which do not remove, is a run of the map with atomic calls that shows the
same calls and replies. When no client is inside a call the table holds the map. -/
theorem calls_linearizable (serves : table.Serves capacity) (owner : K → ι)
    (records : Records K T) (config last : Config ι (Shared B) (Client K T R))
    (trace : List (ι × Event K T R))
    (started : Started table codec capacity recordSize (phases config) records)
    (programs : ∀ c, (config.client c).Calls (Operation.Owned table owner c))
    (run : Run (Client.Steps table codec) config trace last) :
    ∃ moments later,
      Run (Step (Records.object codec capacity recordSize).Moves)
        ⟨records, fun c => (config.client c).phase.place⟩ moments
        ⟨later, fun c => (last.client c).phase.place⟩ ∧
      visible Moment.shown moments = visible Event.shown trace ∧
      ((∀ c, (last.client c).phase = .idle) →
        table.Holds codec capacity recordSize last.shared.memory later) := by
  have initial : (∀ c, (config.client c).Calls (Operation.Owned table owner c)) ∧
      Linearizing table codec capacity recordSize owner (phases config) ⟨records, ∅⟩ :=
    ⟨programs, .of_idle started.exclusive started.idle started.holds.stocked⟩
  obtain ⟨moments, later, run', same, _, linearizing⟩ :=
    Object.linearizes (Records.object codec capacity recordSize)
      (fun client : Client K T R => client.phase.place) Event.shown
      (fun config records => (∀ c, (config.client c).Calls (Operation.Owned table owner c)) ∧
        Linearizing table codec capacity recordSize owner (phases config) ⟨records, ∅⟩)
      (fun {config c event shared own state} ⟨programs, linearizing⟩ stepped => by
        obtain ⟨effect, program⟩ := Client.next_effect _ (programs c) stepped
        obtain ⟨later, linearizing, sees⟩ := linearizing.step serves effect
        refine ⟨later, ⟨Config.moved_forall _ _ _ _ program (fun d _ => programs d), ?_⟩,
          Stock.sees_of_nothing sees⟩
        rw [phases, Config.map_moved]
        exact linearizing)
      run initial
  exact ⟨moments, later, run', same, fun idle => (linearizing.stocked idle).holds⟩

end Runs

/-! ### Two clients that insert, search and update -/

/-- Client `false` inserts record 1 and searches record 2, client `true` inserts
record 2 and increments both. -/
def sharingStart : Config Bool (Shared (Node UInt8)) (Client UInt8 (UInt8 × UInt8) Unit) :=
  starting (twoRecordsAfter [])
    (fun c => if c then
        [.insert (2, 5), .updateMany [1, 2] (fun record => (record.1, record.2 + 1))]
      else [.insert (1, 7), .find 2])

def sharingOwner (key : UInt8) : Bool := key == 2

theorem sharingStart_calls (c : Bool) :
    (sharingStart.client c).Calls (Operation.Owned twoRecords sharingOwner c) := by
  cases c with
  | false =>
    refine Client.ofCalls_calls
      (List.forall_mem_cons.mpr ⟨⟨rfl, by decide⟩, fun operation member => ?_⟩)
    rw [List.mem_singleton.mp member]
    trivial
  | true =>
    refine Client.ofCalls_calls
      (List.forall_mem_cons.mpr ⟨⟨rfl, by decide⟩, fun operation member => ?_⟩)
    rw [List.mem_singleton.mp member]
    trivial

/-- Both insertions pass their lookups before either takes the semaphore. -/
theorem calls_linearizable_sample :
    ∃ trace last moments later,
      Run (Client.Steps twoRecords .twoBytes) sharingStart trace last ∧
      (last.client false).replies.length = 2 ∧ (last.client true).replies.length = 2 ∧
      Run (Step (Records.object .twoBytes 2 2).Moves)
        ⟨∅, fun c => (sharingStart.client c).phase.place⟩ moments
        ⟨later, fun c => (last.client c).phase.place⟩ ∧
      visible Moment.shown moments = visible Event.shown trace := by
  obtain ⟨trace, last, returned, run⟩ := exists_run (Client.next twoRecords .twoBytes)
    (fun _ _ => true) sharingStart
    ([false, false, true, true] ++ List.replicate 5 false ++ List.replicate 5 true ++
      [false, true, true, false, true, false, true, false, true, false] ++ List.replicate 8 true)
    (fun _ last => decide ((last.client false).replies.length = 2 ∧
      (last.client true).replies.length = 2)) (by decide +kernel)
  obtain ⟨first, second⟩ := of_decide_eq_true returned
  have holds : twoRecords.Holds .twoBytes 2 2 sharingStart.shared.memory
      (∅ : Records UInt8 (UInt8 × UInt8)) :=
        Table.Holds.of_create (.cell UInt8) UInt8.toNat 0 _ _ (by decide)
  obtain ⟨moments, later, atomic, same, _⟩ := calls_linearizable twoRecords_serves sharingOwner ∅
    sharingStart last trace (holds.started _) sharingStart_calls run.unguarded
  exact ⟨trace, last, moments, later, run.unguarded, first, second, atomic, same⟩

end InMemoryTable
