import InMemoryTable.ReachedRecords

/-! `update_many` with all locks: every present key is updated as often as the list
names it, in whatever order, and nothing else happens. -/
namespace InMemoryTable
open Transition

namespace Records
variable {K T : Type} [DecidableEq K] {codec : Bincode T} {recordSize : Nat} {updater : T → T}

/-- The updates of different keys do not meet: each key sees its own alone. -/
theorem updateMany_ok {keys : List K} {records after : Records K T} {found count : Nat}
    (updated : updateMany codec recordSize updater records keys found = (.ok count, after)) :
    (∀ key, after.lookup key =
        (records.lookup key).map (fun entry => (entry.1, updater^[keys.count key] entry.2))) ∧
      count = found + keys.countP (fun key => (records.lookup key).isSome) := by
  induction keys generalizing records found with
  | nil =>
    cases updated
    simp
  | cons key keys ih =>
    unfold updateMany at updated
    cases lookup : records.lookup key with
    | none =>
      simp only [lookup] at updated
      obtain ⟨entries, total⟩ := ih updated
      constructor
      · intro other
        by_cases same : other = key
        · subst same
          rw [entries, lookup, Option.map_none, Option.map_none]
        · rw [entries, List.count_cons_of_ne (Ne.symm same)]
      · rw [total, List.countP_cons_of_neg (by simp [lookup])]
    | some entry =>
      simp only [lookup] at updated
      split at updated
      · cases updated
      obtain ⟨entries, total⟩ := ih updated
      constructor
      · intro other
        by_cases same : other = key
        · subst same
          rw [entries, Finmap.lookup_insert, lookup, List.count_cons_self]
          rfl
        · rw [entries, Finmap.lookup_insert_of_ne _ same, List.count_cons_of_ne (Ne.symm same)]
      · have present : ∀ other,
            ((records.insert key (entry.1, updater entry.2)).lookup other).isSome =
              (records.lookup other).isSome := by
          intro other
          by_cases same : other = key
          · subst same
            rw [Finmap.lookup_insert, lookup]
            rfl
          · rw [Finmap.lookup_insert_of_ne _ same]
        rw [total, List.countP_cons_of_pos (by simp [lookup])]
        simp only [present]
        omega

end Records

namespace Table
variable {K T B : Type} {table : Table K B} {codec : Bincode T} {updater : T → T}
  {memory middle after : TableMemory B}

theorem update_ok_iff {index : Nat} {record : T} :
    update codec memory index record = (.ok (), after) ↔
      ∃ bytes, codec.encode record = .ok bytes ∧ bytes.length ≤ memory.slots.maxData ∧
        after = { memory with slots := memory.slots.setRecordData index bytes } := by
  constructor
  · intro written
    cases encoded : codec.encode record with
    | error e =>
      simp only [update, encoded] at written
      cases written
    | ok bytes =>
      simp only [update, encoded, Slots.update] at written
      split at written
      · cases written
      · rename_i fits
        cases written
        exact ⟨bytes, rfl, Nat.not_lt.mp fits, rfl⟩
  · rintro ⟨bytes, encoded, fits, rfl⟩
    simp only [update, encoded, Slots.update, gt_iff_lt, Nat.not_lt.mpr fits, if_false]

/-- Writes to different slots do not depend on their order. -/
theorem update_swap {i j : Nat} {first second : T} (different : i ≠ j)
    (written : update codec memory i first = (.ok (), middle))
    (rewritten : update codec middle j second = (.ok (), after)) :
    ∃ other, update codec memory j second = (.ok (), other) ∧
      update codec other i first = (.ok (), after) := by
  obtain ⟨bytes, encoded, fits, rfl⟩ := update_ok_iff.mp written
  obtain ⟨bytes', encoded', fits', rfl⟩ := update_ok_iff.mp rewritten
  refine ⟨_, update_ok_iff.mpr ⟨bytes', encoded', fits', rfl⟩,
    update_ok_iff.mpr ⟨bytes, encoded, fits, ?_⟩⟩
  simp only [Slots.setRecordData_comm _ different]

variable [DecidableEq K]

/-- One round of `update_many` without an error. -/
def Updates (table : Table K B) (codec : Bincode T) (updater : T → T) (memory : TableMemory B)
    (key : K) (after : TableMemory B) : Prop :=
  ∃ reply, table.updateWithLock codec (fun _ => .ok ()) memory key
    (fun record => ((), updater record)) = some (.ok reply, after)

theorem updateMany_ok_iff_run {keys : List K} {found : Nat} :
    (∃ count, table.updateMany codec (fun _ => .ok ()) updater memory keys found =
        some (.ok count, after)) ↔
      Run (table.Updates codec updater) memory keys after := by
  simp only [updateMany_eq_updateEach]
  constructor
  · rintro ⟨count, updated⟩
    induction keys generalizing memory found with
    | nil =>
      cases updated
      exact .refl _
    | cons key keys ih =>
      simp only [updateEach, bind, Option.bind_eq_some_iff] at updated
      obtain ⟨⟨result, written⟩, returned, updated⟩ := updated
      cases result with
      | error e => cases updated
      | ok reply =>
        refine .next ⟨reply, returned⟩ ?_
        cases reply with
        | none => exact ih updated
        | some _ => exact ih updated
  · intro run
    induction run generalizing found with
    | refl memory => exact ⟨found, rfl⟩
    | next head _ ih =>
      obtain ⟨reply, returned⟩ := head
      simp only [updateEach, returned, bind, Option.bind_some]
      cases reply with
      | none => exact ih
      | some _ => exact ih

namespace Holds
variable {capacity recordSize : Nat} {records : Records K T}

theorem updates_iff (holds : Holds table codec capacity recordSize memory records)
    (serves : table.Serves capacity) {key : K} :
    table.Updates codec updater memory key after ↔
      (records.lookup key = none ∧ after = memory) ∨
      ∃ index record, records.lookup key = some (index, record) ∧
        Table.update codec memory index (updater record) = (.ok (), after) := by
  have position := holds.lookup_eq serves.buckets key
  constructor
  · rintro ⟨reply, returned⟩
    cases found : records.lookup key with
    | none =>
      simp [Table.updateWithLock, position, found] at returned
      exact .inl ⟨rfl, returned.2.symm⟩
    | some entry =>
      refine .inr ⟨entry.1, entry.2, rfl, ?_⟩
      simp only [Table.updateWithLock, position, found, holds.lockRecord serves found,
        holds.get_eq found, bind, Option.bind_some, Option.map_some] at returned
      split at returned
      · cases returned
      · rename_i written
        cases returned
        exact written
  · rintro (⟨absent, rfl⟩ | ⟨index, record, found, written⟩)
    · exact ⟨none, by simp [Table.updateWithLock, position, absent]⟩
    · exact ⟨some (), by simp [Table.updateWithLock, position, found, holds.lockRecord serves found,
        holds.get_eq found, written]⟩

theorem update_ok (holds : Holds table codec capacity recordSize memory records) {key : K}
    {index : Nat} {record written : T} (found : records.lookup key = some (index, record))
    (updated : Table.update codec memory index written = (.ok (), after)) :
    Holds table codec capacity recordSize after (records.insert key (index, written)) := by
  obtain ⟨e, _, refused⟩ | ⟨_, after', same, held⟩ := holds.update_cases found written
  · cases updated.symm.trans refused
  · cases updated.symm.trans same
    exact held

/-- Two rounds can change places: different keys have different slots, and what a
round does depends on the record of its key alone. -/
theorem updates_swap (holds : Holds table codec capacity recordSize memory records)
    (serves : table.Serves capacity) {key other : K}
    (first : table.Updates codec updater memory key middle)
    (second : table.Updates codec updater middle other after) :
    ∃ between, table.Updates codec updater memory other between ∧
      table.Updates codec updater between key after := by
  by_cases same : other = key
  · subst same
    exact ⟨middle, first, second⟩
  obtain ⟨absent, rfl⟩ | ⟨i, record, found, written⟩ := (holds.updates_iff serves).mp first
  · refine ⟨after, second, ?_⟩
    obtain ⟨_, rfl⟩ | ⟨j, record', found', written'⟩ := (holds.updates_iff serves).mp second
    · exact first
    · apply ((holds.update_ok found' written').updates_iff serves).mpr
      exact .inl ⟨by rw [Finmap.lookup_insert_of_ne _ (Ne.symm same), absent], rfl⟩
  · have held := holds.update_ok found written
    obtain ⟨absent, rfl⟩ | ⟨j, record', found', written'⟩ := (held.updates_iff serves).mp second
    · rw [Finmap.lookup_insert_of_ne _ same] at absent
      exact ⟨memory, (holds.updates_iff serves).mpr (.inl ⟨absent, rfl⟩), first⟩
    · rw [Finmap.lookup_insert_of_ne _ same] at found'
      have apart : i ≠ j := by
        rintro rfl
        exact same (holds.distinct found' found)
      obtain ⟨between, early, late⟩ := update_swap apart written written'
      refine ⟨between, (holds.updates_iff serves).mpr (.inr ⟨j, record', found', early⟩), ?_⟩
      apply ((holds.update_ok found' early).updates_iff serves).mpr
      exact .inr ⟨i, record, by rw [Finmap.lookup_insert_of_ne _ (Ne.symm same), found], late⟩

theorem updates_keeps (holds : Holds table codec capacity recordSize memory records)
    (serves : table.Serves capacity) {key : K}
    (updated : table.Updates codec updater memory key after) :
    ∃ records', Holds table codec capacity recordSize after records' := by
  obtain ⟨_, rfl⟩ | ⟨index, record, found, written⟩ := (holds.updates_iff serves).mp updated
  · exact ⟨records, holds⟩
  · exact ⟨_, holds.update_ok found written⟩

/-- What `find` answers after all rounds, and how many of them found their key. -/
theorem updateMany_find (holds : Holds table codec capacity recordSize memory records)
    (serves : table.Serves capacity) {keys : List K} {found count : Nat}
    (updated : table.updateMany codec (fun _ => .ok ()) updater memory keys found =
      some (.ok count, after)) :
    (∀ key, table.find codec after key = some (.ok ((records.lookup key).map
        (fun entry => updater^[keys.count key] entry.2)))) ∧
      count = found + keys.countP (fun key => (records.lookup key).isSome) := by
  obtain ⟨after', returned, held⟩ := holds.updateMany serves updater keys found
  obtain ⟨same, rfl⟩ := Prod.mk.inj (Option.some.inj (updated.symm.trans returned))
  obtain ⟨entries, total⟩ := Records.updateMany_ok (Prod.ext same.symm rfl :
    Records.updateMany codec recordSize updater records keys found = (.ok count, _))
  refine ⟨fun key => ?_, total⟩
  rw [held.find serves, entries, Option.map_map]
  rfl

theorem updateMany_perm (holds : Holds table codec capacity recordSize memory records)
    (serves : table.Serves capacity) {keys permuted : List K} {found count : Nat}
    (perm : keys.Perm permuted)
    (updated : table.updateMany codec (fun _ => .ok ()) updater memory keys found =
      some (.ok count, after)) :
    table.updateMany codec (fun _ => .ok ()) updater memory permuted found =
      some (.ok count, after) := by
  have run := updateMany_ok_iff_run.mp ⟨count, updated⟩
  have swapped : Run (table.Updates codec updater) memory permuted after := by
    refine run.perm (P := fun memory => ∃ records, Holds table codec capacity recordSize memory
      records) ?_ ?_ perm ⟨records, holds⟩
    · rintro _ _ _ ⟨_, held⟩ step
      exact held.updates_keeps serves step
    · rintro _ _ _ _ _ ⟨_, held⟩ first second
      exact held.updates_swap serves first second
  obtain ⟨count', updated'⟩ := updateMany_ok_iff_run.mpr swapped
  rw [updated', (holds.updateMany_find serves updated').2, (holds.updateMany_find serves updated).2,
    perm.countP_eq]

end Holds

/-- `find` answers with a record. -/
def present (table : Table K B) (codec : Bincode T) (memory : TableMemory B) (key : K) : Bool :=
  (table.find codec memory key).any (fun found => found.toOption.join.isSome)

/-- What `find` answers before and after a call, in terms of the answers alone. -/
theorem updateMany_done {records : Records K T} {keys : List K} {count : Nat}
    (before : ∀ key, table.find codec memory key = some (.ok ((records.lookup key).map Prod.snd)))
    (answers : ∀ key, table.find codec after key = some (.ok ((records.lookup key).map
      (fun entry => updater^[keys.count key] entry.2))))
    (total : count = 0 + keys.countP (fun key => (records.lookup key).isSome)) :
    (∀ key record, table.find codec memory key = some (.ok (some record)) →
      table.find codec after key = some (.ok (some (updater^[keys.count key] record)))) ∧
    (∀ key, key ∉ keys ∨ table.present codec memory key = false →
      table.find codec after key = table.find codec memory key) ∧
    count = keys.countP (table.present codec memory) := by
  have stored : ∀ key, table.present codec memory key = (records.lookup key).isSome := by
    intro key
    simp [present, before, Except.toOption]
  refine ⟨?_, ?_, ?_⟩
  · intro key record found
    rw [before] at found
    obtain ⟨entry, lookup, rfl⟩ := Option.map_eq_some_iff.mp (Except.ok.inj (Option.some.inj found))
    rw [answers, lookup]
    rfl
  · intro key untouched
    rw [answers, before]
    rcases untouched with outside | absent
    · rw [List.count_eq_zero_of_not_mem outside]
      rfl
    · rw [stored, Option.isSome_eq_false_iff, Option.isNone_iff_eq_none] at absent
      rw [absent]
      rfl
  · rw [total, Nat.zero_add]
    exact List.countP_congr (fun key _ => by rw [stored])

end Table

section Runs
variable {K T R B : Type} [DecidableEq K] [Inhabited K] [TableRecord T K]

/-- In every state that calls can reach, and with all locks: a call of `update_many`
that succeeds has updated the record of every key as often as the list names it and
left everything else alone, in any order of the list; a call that fails has worked off
the keys in front; and it never differs from `update_with_lock` on one key after the
other. -/
theorem updateMany_spec (layout : NodeLayout K B) (hasher : K → Nat) (semId : Nat)
    (codec : Bincode T) (capacity recordSize : Nat)
    (small : Slots.slotMetadataSize + recordSize < usizeModulus)
    (data : Nat → Slot UInt8) (nodes : Nat → Slot B)
    (calls : List (Operation K T R × Reply T R)) (memory : TableMemory B)
    (run : Run (CallStep (Table.handle layout hasher semId capacity) codec)
      (Table.createWithSize layout hasher semId capacity recordSize data nodes).2 calls memory)
    (updater : T → T) (keys : List K) :
    let table := Table.handle layout hasher semId capacity
    let updateMany := fun keys => table.updateMany codec (fun _ => .ok ()) updater memory keys 0
    (updateMany keys).isSome ∧
    (∀ count after, updateMany keys = some (.ok count, after) →
      (∀ key record, table.find codec memory key = some (.ok (some record)) →
        table.find codec after key = some (.ok (some (updater^[keys.count key] record)))) ∧
      (∀ key, key ∉ keys ∨ table.present codec memory key = false →
        table.find codec after key = table.find codec memory key) ∧
      count = keys.countP (table.present codec memory) ∧
      ∀ permuted, keys.Perm permuted → updateMany permuted = some (.ok count, after)) ∧
    (∀ e after, updateMany keys = some (.error e, after) →
      ∃ pre key post count, keys = pre ++ key :: post ∧
        updateMany pre = some (.ok count, after) ∧
        table.updateWithLock codec (fun _ => .ok ()) after key (fun record => ((), updater record)) =
          some (.error e, after)) ∧
    ∀ rounds, updateMany (keys.take rounds) =
      table.updateEach codec (fun _ => .ok ()) updater memory (keys.take rounds) 0 := by
  intro table updateMany
  refine ⟨?_, ?_, fun e after failed => Table.updateMany_error_iff.mp failed,
    fun rounds => Table.updateMany_eq_updateEach memory _ 0⟩
  · obtain ⟨reply, after, returned, _⟩ :=
      (Kept.of_run small run).run small (fun _ => .ok ()) (.updateMany keys updater)
    obtain ⟨_, returned, _⟩ := Option.map_eq_some_iff.mp returned
    exact Option.isSome_of_eq_some returned
  intro count after updated
  rcases Nat.eq_zero_or_pos capacity with rfl | positive
  · have absent := (Kept.of_run small run).absent
    have nothing : ∀ key, table.find codec memory key = some (.ok none) := by
      intro key
      simp only [Table.find, table, absent, bind, Option.bind_some]
    have unchanged : ∀ keys, updateMany keys = some (.ok 0, memory) := fun keys =>
      Table.updateMany_absent absent keys 0
    rw [unchanged keys] at updated
    cases updated
    have none_found : keys.countP (fun key => ((∅ : Records K T).lookup key).isSome) = 0 := by
      simp
    obtain ⟨found, others, total⟩ := @Table.updateMany_done K T B table codec updater memory memory _
      ∅ keys 0 nothing nothing (by rw [none_found])
    exact ⟨found, others, total, fun permuted _ => unchanged permuted⟩
  · have serves := Table.handle_serves layout hasher semId positive
    obtain ⟨records, holds⟩ := Table.Holds.of_run positive small run
    obtain ⟨answers, count_eq⟩ := holds.updateMany_find serves updated
    obtain ⟨found, others, total⟩ := Table.updateMany_done (holds.find serves) answers count_eq
    exact ⟨found, others, total, fun permuted perm => holds.updateMany_perm serves perm updated⟩

end Runs

def addOne (record : UInt8 × UInt8) : UInt8 × UInt8 := (record.1, record.2 + 1)

/-- One record, updated three times; a key that is not there does not count. -/
theorem updateMany_spec_sample :
    let table := Table.handle (.cell UInt8) UInt8.toNat 0 1
    ∃ after, table.updateMany .twoBytes (fun _ => .ok ()) addOne rekeyedMemory [1, 5, 1, 1] 0 =
        some (.ok 3, after) ∧
      table.find .twoBytes after 1 = some (.ok (some (3, 7))) ∧
      table.updateMany .twoBytes (fun _ => .ok ()) addOne rekeyedMemory [1, 1, 1, 5] 0 =
        some (.ok 3, after) := by
  obtain ⟨_, updated, _⟩ := updateMany_spec (.cell UInt8) UInt8.toNat 0 .twoBytes 1 2 (by decide) _ _
    rekeyed rekeyedMemory rekeyed_run addOne [1, 5, 1, 1]
  have counted : ((Table.handle (.cell UInt8) UInt8.toNat 0 1).updateMany .twoBytes (fun _ => .ok ())
      addOne rekeyedMemory [1, 5, 1, 1] 0).map Prod.fst = some (.ok 3) := rfl
  obtain ⟨⟨_, after⟩, returned, rfl⟩ := Option.map_eq_some_iff.mp counted
  obtain ⟨found, _, _, anyOrder⟩ := updated 3 after returned
  exact ⟨after, returned, found 1 (3, 4) rfl, anyOrder [1, 1, 1, 5] (by decide)⟩

end InMemoryTable
