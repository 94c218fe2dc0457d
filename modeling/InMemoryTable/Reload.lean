import InMemoryTable.RegistryRun

/-! Loading a new table with what `iter()` yields of another one. The records are
filed under their own keys, in slots numbered in the order of the iteration; the
copy answers every `find` as the original does as long as no closure has changed
the key of a record. -/
namespace InMemoryTable
open Simulation

namespace Records
variable {T : Type} {codec : Bincode T} {recordSize larger : Nat} {record : T}

theorem accept_mono (accepted : accept codec recordSize record = .ok ())
    (larger_le : recordSize ≤ larger) : accept codec larger record = .ok () := by
  simp only [accept] at accepted ⊢
  cases encoded : codec.encode record with
  | error e =>
    rw [encoded] at accepted
    cases accepted
  | ok bytes =>
    simp only [encoded, ite_eq_right_iff, reduceCtorEq, imp_false, not_lt] at accepted ⊢
    omega

/-- The bytes of an accepted record fit. -/
theorem accept_ok (accepted : accept codec recordSize record = .ok ()) :
    ∃ bytes, codec.encode record = .ok bytes ∧ ¬ bytes.length > recordSize := by
  simp only [accept] at accepted
  cases encoded : codec.encode record with
  | error e =>
    rw [encoded] at accepted
    cases accepted
  | ok bytes =>
    simp only [encoded, ite_eq_right_iff, reduceCtorEq, imp_false] at accepted
    exact ⟨bytes, rfl, accepted⟩

end Records

/-- The closures of a call do not change the keys of records. -/
def PublicCall.KeepsKey {K T R : Type} [TableRecord T K] : PublicCall K T R → Prop
  | .operation call => call.KeepsKey
  | .query _ => True

namespace Registry
variable {K T R : Type} {codec : Bincode T} {capacity recordSize : Nat} {registry : Registry K T}

/-! ### What the slots hold -/

/-- Every record was accepted; if `keyed`, each is filed under its own key. -/
def Filled [TableRecord T K] (codec : Bincode T) (recordSize : Nat) (keyed : Prop)
    (registry : Registry K T) : Prop :=
  ∀ index key record, registry.entry index = some (key, record) →
    Records.accept codec recordSize record = .ok () ∧ (keyed → TableRecord.key record = key)

theorem slotOf_some [DecidableEq K] {key : K} {index : Nat} {record : T}
    (slot : registry.slotOf capacity key = some (index, record)) :
    registry.entry index = some (key, record) := by
  obtain ⟨i, _, same⟩ := List.exists_of_findSome?_eq_some slot
  obtain ⟨⟨other, value⟩, filed, chosen⟩ := Option.bind_eq_some_iff.mp same
  simp only [Option.ite_none_right_eq_some, Option.some.injEq, Prod.mk.injEq] at chosen
  obtain ⟨rfl, rfl, rfl⟩ := chosen
  exact filed

namespace Filled
variable [TableRecord T K] {keyed : Prop}

theorem put (filled : registry.Filled codec recordSize keyed) {key : K} {record : T}
    (accepted : Records.accept codec recordSize record = .ok ())
    (own : keyed → TableRecord.key record = key) (index : Nat) :
    (registry.put index key record).Filled codec recordSize keyed := by
  intro i other value filed
  by_cases here : i = index
  · subst here
    rw [put_entry, Function.update_self] at filed
    cases filed
    exact ⟨accepted, own⟩
  · rw [put_entry, Function.update_of_ne here] at filed
    exact filled i other value filed

theorem replace (filled : registry.Filled codec recordSize keyed) {key : K} (record : T)
    (own : keyed → TableRecord.key record = key) (index : Nat) :
    (registry.replace codec recordSize index key record).2.Filled codec recordSize keyed := by
  rw [Registry.replace]
  cases accepted : Records.accept codec recordSize record with
  | error e => exact filled
  | ok => exact filled.put accepted own index

variable [DecidableEq K]

theorem updateMany (updater : T → T)
    (keeps : keyed → ∀ record, TableRecord.key (updater record) = (TableRecord.key record : K))
    (keys : List K) (found : Nat) (filled : registry.Filled codec recordSize keyed) :
    (Registry.updateMany codec capacity recordSize updater registry keys found).2.Filled codec
      recordSize keyed := by
  induction keys generalizing registry found with
  | nil => exact filled
  | cons key keys ih =>
    simp only [Registry.updateMany]
    cases slot : registry.slotOf capacity key with
    | none => exact ih found filled
    | some entry =>
      obtain ⟨index, record⟩ := entry
      have replaced := filled.replace (updater record)
        (fun holds => (keeps holds record).trans ((filled _ _ _ (slotOf_some slot)).2 holds)) index
      simp only
      generalize registry.replace codec recordSize index key (updater record) = outcome
        at replaced
      obtain ⟨_ | _, registry'⟩ := outcome
      · exact replaced
      · exact ih (found + 1) replaced

theorem run (filled : registry.Filled codec recordSize keyed) (operation : Operation K T R)
    (keeps : keyed → operation.KeepsKey) :
    (registry.run codec capacity recordSize operation).2.Filled codec recordSize keyed := by
  cases operation with
  | insert record =>
    simp only [Registry.run, Registry.insert]
    cases registry.slotOf capacity (TableRecord.key record : K) with
    | some _ => exact filled
    | none =>
      cases encoded : codec.encode record with
      | error e => exact filled
      | ok bytes =>
        cases registry.free with
        | nil => exact filled
        | cons index free =>
          by_cases big : bytes.length > recordSize
          · simpa only [big, if_true] using filled
          · simp only [big, if_false]
            refine filled.put ?_ (fun _ => rfl) index
            simp only [Records.accept, encoded, big, if_false]
  | find key => exact filled
  | updateWithLock key f =>
    simp only [Registry.run, Registry.updateWithLock]
    cases slot : registry.slotOf capacity key with
    | none => exact filled
    | some entry =>
      obtain ⟨index, record⟩ := entry
      have replaced := filled.replace (f record).2
        (fun holds => (keeps holds record).trans ((filled _ _ _ (slotOf_some slot)).2 holds)) index
      simp only
      generalize registry.replace codec recordSize index key (f record).2 = outcome at replaced
      obtain ⟨_ | _, registry'⟩ := outcome
      · exact replaced
      · exact replaced
  | remove key =>
    simp only [Registry.run, Registry.remove]
    cases registry.slotOf capacity key with
    | none => exact filled
    | some entry =>
      intro i other value filed
      by_cases here : i = entry.1
      · rw [here, release_entry, Function.update_self] at filed
        cases filed
      · rw [release_entry, Function.update_of_ne here] at filed
        exact filled i other value filed
  | updateMany keys updater => exact filled.updateMany updater keeps keys 0

theorem replay (calls : List (PublicCall K T R)) (keeps : keyed → ∀ call ∈ calls, call.KeepsKey)
    (filled : registry.Filled codec recordSize keyed) :
    (Simulation.replay (Registry.publicCall codec capacity recordSize) registry calls).2.Filled
      codec recordSize keyed := by
  induction calls generalizing registry with
  | nil => exact filled
  | cons call rest ih =>
    refine ih (fun holds call member => keeps holds call (List.mem_cons_of_mem _ member)) ?_
    cases call with
    | operation operation =>
      exact filled.run operation (fun holds => keeps holds _ List.mem_cons_self)
    | query query => exact filled

end Filled

/-! ### Finding a record among the entries -/

theorem find_entries [DecidableEq K] (key : K) :
    registry.find capacity key =
      ((registry.entries capacity).find? (fun entry => entry.1 = key)).map Prod.snd := by
  rw [find, slotOf, entries]
  induction List.range capacity with
  | nil => rfl
  | cons i rest ih =>
    cases filed : registry.entry i with
    | none => simpa [filed] using ih
    | some entry =>
      by_cases same : entry.1 = key
      · simp [filed, same]
      · simpa [filed, same] using ih

/-! ### Filling from the lowest slot -/

section Packed
variable [TableRecord T K] {records : List T}

/-- The records under their own keys in the first slots. -/
def packed (capacity : Nat) (records : List T) : Registry K T where
  entry i := records[i]?.map (fun record => (TableRecord.key record, record))
  free := List.range' records.length (capacity - records.length)

@[simp] theorem packed_entry (index : Nat) :
    (packed capacity records : Registry K T).entry index =
      records[index]?.map (fun record => (TableRecord.key record, record)) := rfl

@[simp] theorem packed_free :
    (packed capacity records : Registry K T).free =
      List.range' records.length (capacity - records.length) := rfl

theorem new_eq_packed (capacity : Nat) :
    (Registry.new capacity : Registry K T) = packed capacity [] := by
  simp [new, packed, List.range_eq_range']

theorem packed_entries (fits : records.length ≤ capacity) :
    (packed capacity records : Registry K T).entries capacity =
      records.map (fun record => (TableRecord.key record, record)) := by
  rw [entries]
  induction records generalizing capacity with
  | nil => simp [packed]
  | cons record rest ih =>
    obtain ⟨spare, rfl⟩ := Nat.exists_eq_succ_of_ne_zero
      (Nat.ne_of_gt (Nat.lt_of_lt_of_le (Nat.succ_pos rest.length) fits))
    rw [List.range_succ_eq_map, List.map_cons, ← ih (Nat.le_of_succ_le_succ fits)]
    simp [packed, List.filterMap_map]

variable [DecidableEq K]

theorem packed_slotOf (fits : records.length ≤ capacity) (key : K) :
    (packed capacity records : Registry K T).slotOf capacity key = none ↔
      key ∉ records.map TableRecord.key := by
  rw [← Option.map_eq_none_iff (f := Prod.snd)]
  have found : (packed capacity records : Registry K T).find capacity key = _ := find_entries key
  rw [packed_entries fits, find] at found
  rw [found]
  simp

/-- The record goes to the first free slot. -/
theorem packed_insert {record : T} (accepted : Records.accept codec recordSize record = .ok ())
    (room : records.length < capacity) :
    (packed capacity records : Registry K T).insert codec capacity recordSize record =
      if (TableRecord.key record : K) ∈ records.map TableRecord.key then
        (.error .recordDuplicated, packed capacity records)
      else (.ok records.length, packed capacity (records ++ [record])) := by
  obtain ⟨bytes, encoded, fits⟩ := Records.accept_ok accepted
  have missing := packed_slotOf (Nat.le_of_lt room) (TableRecord.key record : K)
  rw [insert]
  cases slot : (packed capacity records : Registry K T).slotOf capacity (TableRecord.key record) with
  | some entry =>
    rw [slot] at missing
    rw [if_pos (not_not.mp (missing.not.mp (Option.some_ne_none entry)))]
  | none =>
    rw [if_neg (missing.mp slot)]
    obtain ⟨spare, free⟩ := Nat.exists_eq_add_of_lt room
    have first : (packed capacity records : Registry K T).free =
        records.length :: List.range' (records.length + 1) spare := by
      rw [packed_free, free, show records.length + spare + 1 - records.length = spare + 1 by omega,
        List.range'_succ]
    simp only [encoded, first, fits, if_false, Prod.mk.injEq, true_and]
    rw [mk.injEq]
    constructor
    · funext i
      rw [put_entry, packed_entry]
      rcases Nat.lt_trichotomy i records.length with before | rfl | after
      · rw [Function.update_of_ne (Nat.ne_of_lt before), List.getElem?_append_left before,
          packed_entry]
      · simp
      · rw [Function.update_of_ne (Nat.ne_of_gt after), packed_entry,
          List.getElem?_eq_none (Nat.le_of_lt after),
          List.getElem?_eq_none (by simpa using Nat.succ_le_of_lt after)]
    · rw [packed_free, List.length_append, List.length_singleton]
      congr 1
      omega

/-- The record is inserted by a public call. -/
def inserting (record : T) : PublicCall K T R := .operation (.insert record)

/-- The answers are the numbers of the slots exactly if no key comes twice. -/
theorem packed_load (records rest : List T)
    (accepted : ∀ record ∈ rest, Records.accept codec recordSize record = .ok ())
    (fits : records.length + rest.length ≤ capacity)
    (distinct : (records.map (TableRecord.key : T → K)).Nodup) :
    ((replay (Registry.publicCall (R := R) codec capacity recordSize)
          (packed capacity records : Registry K T) (rest.map inserting)).1 =
        (List.range' records.length rest.length).map (fun i => .operation (.inserted (.ok i))) ↔
      ((records ++ rest).map (TableRecord.key : T → K)).Nodup) ∧
    (((records ++ rest).map (TableRecord.key : T → K)).Nodup →
      (replay (Registry.publicCall (R := R) codec capacity recordSize)
        (packed capacity records : Registry K T) (rest.map inserting)).2 =
        packed capacity (records ++ rest)) := by
  induction rest generalizing records with
  | nil => simpa [replay] using distinct
  | cons record rest ih =>
    have room : records.length < capacity := by
      rw [List.length_cons] at fits
      omega
    have inserted := packed_insert (K := K) (accepted record List.mem_cons_self) room
    simp only [List.map_cons, replay, inserting, publicCall, run, inserted]
    by_cases member : (TableRecord.key record : K) ∈ records.map TableRecord.key
    · have twice : ¬((records ++ record :: rest).map (TableRecord.key : T → K)).Nodup := by
        rw [List.map_append, List.map_cons]
        intro nodup
        exact List.disjoint_of_nodup_append nodup member List.mem_cons_self
      simp only [member, if_true, twice, iff_false, false_implies, and_true]
      intro same
      rw [List.length_cons, List.range'_succ, List.map_cons] at same
      cases List.head_eq_of_cons_eq same
    · simp only [member, if_false]
      have extended : ((records ++ [record]).map (TableRecord.key : T → K)).Nodup := by
        rw [List.map_append, List.map_singleton, ← List.concat_eq_append]
        exact distinct.concat member
      have room : (records ++ [record]).length + rest.length ≤ capacity := by
        rw [List.length_append, List.length_singleton]
        rw [List.length_cons] at fits
        omega
      have ih := ih (records ++ [record])
        (fun other inside => accepted other (List.mem_cons_of_mem _ inside)) room extended
      simpa [List.range'_succ, inserting] using ih

end Packed
end Registry

/-! ### Two tables -/

namespace Table
variable {K T B : Type} [DecidableEq K] {table : Table K B} {codec : Bincode T}
  {capacity recordSize : Nat} {memory : TableMemory B} {registry : Registry K T}

theorem Shows.find (shows : table.Shows codec capacity recordSize memory registry)
    (serves : table.Serves capacity) (key : K) :
    table.find codec memory key = some (.ok (registry.find capacity key)) := by
  obtain ⟨⟨records, filed⟩, _⟩ := shows
  rw [filed.holds.find serves key, Registry.find, filed.slotOf_eq]

theorem Shows.iter (shows : table.Shows codec capacity recordSize memory registry) :
    Table.iter codec memory = some ((registry.entries capacity).map Prod.snd) := by
  obtain ⟨records, iterated, same⟩ := Option.map_eq_some_iff.mp (shows.query .iter)
  cases same
  exact iterated

theorem Shows.keys (shows : table.Shows codec capacity recordSize memory registry) :
    table.keys memory = some ((registry.entries capacity).map Prod.fst) := by
  obtain ⟨keys, listed, same⟩ := Option.map_eq_some_iff.mp (shows.query .keys)
  cases same
  exact listed

/-- No key is filed twice. -/
theorem Shows.distinct (shows : table.Shows codec capacity recordSize memory registry) :
    ((registry.entries capacity).map Prod.fst).Nodup := by
  obtain ⟨⟨records, filed⟩, _⟩ := shows
  rw [Registry.entries, List.map_filterMap]
  refine List.nodup_range.filterMap (fun i j key here there => ?_)
  obtain ⟨⟨_, record⟩, stored, rfl⟩ := Option.map_eq_some_iff.mp here
  obtain ⟨⟨_, record'⟩, stored', rfl⟩ := Option.map_eq_some_iff.mp there
  have found := (filed.files _ i record).mp stored
  rw [(filed.files _ j record').mp stored'] at found
  cases found
  rfl

end Table

section Runs
variable {K T R B : Type} [DecidableEq K] [TableRecord T K] [Inhabited K]

/-- The records that `iter()` yields after any calls are loaded into a second new table
that has room for them: each gets the next slot exactly if their keys differ. Then
the second table iterates like the first, in the same order. If no closure ever changed
a key the keys do differ, and every `find` answers alike on both tables. -/
theorem reload (layout : NodeLayout K B) (hasher : K → Nat) (semId semId' : Nat)
    (codec : Bincode T) (capacity capacity' recordSize recordSize' : Nat)
    (positive : 1 ≤ capacity) (positive' : 1 ≤ capacity') (larger : recordSize ≤ recordSize')
    (fits : Slots.SizeFits tableHeaderSize capacity recordSize)
    (fits' : Slots.SizeFits tableHeaderSize capacity' recordSize')
    (data data' : Nat → Slot UInt8) (nodes nodes' : Nat → Slot B)
    (calls : List (PublicCall K T R)) :
    ∃ replies memory records,
      execute ((Table.handle layout hasher semId capacity).publicCall codec)
          (Table.createWithSize layout hasher semId capacity recordSize data nodes).2 calls =
        some (replies, memory) ∧
      Table.iter codec memory = some records ∧ records.length ≤ capacity ∧
      (records.length ≤ capacity' → ∃ answers copy,
        execute ((Table.handle layout hasher semId' capacity').publicCall codec)
            (Table.createWithSize layout hasher semId' capacity' recordSize' data' nodes').2
            (records.map (Registry.inserting (R := R))) = some (answers, copy) ∧
        (answers = (List.range records.length).map (fun i => .operation (.inserted (.ok i))) ↔
          (records.map TableRecord.key).Nodup) ∧
        ((records.map TableRecord.key).Nodup → Table.iter codec copy = some records ∧
          (Table.handle layout hasher semId' capacity').keys copy =
            some (records.map TableRecord.key)) ∧
        ((∀ call ∈ calls, call.KeepsKey) → (records.map TableRecord.key).Nodup ∧
          ∀ key, (Table.handle layout hasher semId' capacity').find codec copy key =
            (Table.handle layout hasher semId capacity).find codec memory key)) := by
  have serves := Table.handle_serves layout hasher semId positive
  have serves' := Table.handle_serves layout hasher semId' positive'
  obtain ⟨memory, executed, shows⟩ :=
    Table.Shows.of_calls layout hasher semId codec capacity recordSize positive fits.stride data
      nodes calls
  have filled : Registry.Filled codec recordSize (∀ call ∈ calls, call.KeepsKey)
      (replay (Registry.publicCall codec capacity recordSize) (.new capacity) calls).2 :=
    Registry.Filled.replay calls id (fun _ _ _ stored => by cases stored)
  generalize (replay (Registry.publicCall codec capacity recordSize)
    (.new capacity) calls).2 = registry at shows filled
  let records := (registry.entries capacity).map Prod.snd
  have iterated : Table.iter codec memory = some records := shows.iter
  have bound : records.length ≤ capacity := by
    rw [List.length_map]
    exact (List.length_filterMap_le _ _).trans_eq List.length_range
  refine ⟨_, memory, records, executed, iterated, bound, fun room => ?_⟩
  have accepted : ∀ record ∈ records, Records.accept codec recordSize' record = .ok () := by
    intro record member
    obtain ⟨entry, listed, rfl⟩ := List.mem_map.mp member
    obtain ⟨i, _, stored⟩ := List.mem_filterMap.mp listed
    exact Records.accept_mono (filled i entry.1 entry.2 stored).1 larger
  obtain ⟨numbered, loaded⟩ := Registry.packed_load (R := R) [] records accepted
    (by simpa using room) (by simp)
  obtain ⟨copy, copied, shows'⟩ := Table.Shows.of_calls layout hasher semId' codec capacity'
    recordSize' positive' fits'.stride data' nodes' (records.map (Registry.inserting (R := R)))
  rw [Registry.new_eq_packed] at copied shows'
  have same (differ : (records.map TableRecord.key).Nodup) :=
    loaded differ ▸ shows'
  have entries := Registry.packed_entries (K := K) room
  refine ⟨_, copy, copied, by simpa [List.range_eq_range'] using numbered, fun differ => ?_,
    fun keeps => ?_⟩
  · have iterated := (same differ).iter
    have listed := (same differ).keys
    rw [List.nil_append, entries, List.map_map] at iterated listed
    exact ⟨by simpa [Function.comp_def] using iterated, listed⟩
  · have own : registry.entries capacity =
        records.map (fun record => (TableRecord.key record, record)) := by
      rw [List.map_map]
      refine (List.map_id _).symm.trans (List.map_congr_left (fun entry listed => ?_))
      obtain ⟨i, _, stored⟩ := List.mem_filterMap.mp listed
      exact Prod.ext ((filled i entry.1 entry.2 stored).2 keeps).symm rfl
    have differ : (records.map (TableRecord.key : T → K)).Nodup := by
      have distinct := shows.distinct
      rwa [own, List.map_map] at distinct
    refine ⟨differ, fun key => ?_⟩
    rw [(same differ).find serves', shows.find serves, Registry.find_entries,
      Registry.find_entries, own, List.nil_append, entries]

end Runs

/-- A table in which a slot was used twice, and a larger copy. -/
theorem reload_sample :
    ∃ memory records copy, Table.iter .twoBytes memory = some records ∧
      Table.iter .twoBytes copy = some records ∧
      ∀ key, (Table.handle (.cell UInt8) UInt8.toNat 1 3).find .twoBytes copy key =
        (Table.handle (.cell UInt8) UInt8.toNat 0 2).find .twoBytes memory key := by
  obtain ⟨_, memory, records, _, iterated, bound, loads⟩ := reload (.cell UInt8) UInt8.toNat 0 1
    .twoBytes 2 3 2 4 (by decide) (by decide) (by decide) ⟨by decide, by decide⟩
    ⟨by decide, by decide⟩ (fun _ => ⟨.free, 0, []⟩)
    (fun _ => ⟨.free, 0, []⟩) (fun _ => ⟨.free, 0, []⟩) (fun _ => ⟨.free, 0, []⟩) recycledCalls
  obtain ⟨_, copy, _, _, loaded, same⟩ := loads (bound.trans (by decide))
  obtain ⟨differ, found⟩ := same (by simp [recycledCalls, PublicCall.KeepsKey, Operation.KeepsKey])
  exact ⟨memory, records, copy, iterated, (loaded differ).1, found⟩

end InMemoryTable
