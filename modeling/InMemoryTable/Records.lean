import InMemoryTable.Table
import Mathlib.Data.Finmap

/-! What a table is for: a bounded map from keys to records. Every live record
has an index of its own; a call answers from the map and replaces at most the
entries of its own keys. -/
namespace InMemoryTable

/-- The index and the value of every live record, by key. -/
abbrev Records (K T : Type) := Finmap (fun _ : K => Nat × T)

/-- The closures of a call do not change the keys of records. -/
def Operation.KeepsKey {K T R : Type} [TableRecord T K] : Operation K T R → Prop
  | .updateWithLock _ f => ∀ record, TableRecord.key (f record).2 = (TableRecord.key record : K)
  | .updateMany _ updater =>
    ∀ record, TableRecord.key (updater record) = (TableRecord.key record : K)
  | _ => True

namespace Records
variable {K T R : Type} [DecidableEq K] (codec : Bincode T) (capacity recordSize : Nat)

/-- Storing a record in a slot that exists already: a record that does not
serialize or does not fit is refused. -/
def accept (record : T) : Except InMemoryTableError Unit :=
  match codec.encode record with
  | .error e => .error e
  | .ok bytes =>
    if bytes.length > recordSize then .error (.recordSizeTooBig bytes.length recordSize) else .ok ()

/-- The order of the checks of an insertion. -/
def acceptNew (records : Records K T) (record : T) : Except InMemoryTableError Unit :=
  match codec.encode record with
  | .error e => .error e
  | .ok _ =>
    if records.keys.card = capacity then .error (.tableFull capacity capacity)
    else accept codec recordSize record

/-- An index below the capacity that no live record has. -/
def Unused (records : Records K T) (index : Nat) : Prop :=
  index < capacity ∧ ∀ key entry, records.lookup key = some entry → entry.1 ≠ index

def updateMany (updater : T → T) :
    Records K T → List K → Nat → Except InMemoryTableError Nat × Records K T
  | records, [], found => (.ok found, records)
  | records, key :: keys, found =>
    match records.lookup key with
    | none => updateMany updater records keys found
    | some (index, record) =>
      match accept codec recordSize (updater record) with
      | .error e => (.error e, records)
      | .ok () => updateMany updater (records.insert key (index, updater record)) keys (found + 1)

/-- The record under a key. -/
def under (records : Records K T) (key : K) : Option T := (records.lookup key).map Prod.snd

theorem under_insert (records : Records K T) (key : K) (index : Nat) (record : T) :
    under (records.insert key (index, record)) =
      Function.update records.under key (some record) := by
  funext other
  by_cases here : other = key
  · subst here
    simp [under, Finmap.lookup_insert]
  · simp [under, Finmap.lookup_insert_of_ne _ here, Function.update_of_ne here]

/-- An update of several keys leaves the others alone. -/
theorem updateMany_lookup_other (updater : T → T) {keys : List K} {other : K}
    (outside : other ∉ keys) (records : Records K T) (found : Nat) :
    (updateMany codec recordSize updater records keys found).2.lookup other =
      records.lookup other := by
  induction keys generalizing records found with
  | nil => rfl
  | cons key keys ih =>
    simp only [List.mem_cons, not_or] at outside
    obtain ⟨different, outside⟩ := outside
    unfold updateMany
    split
    · exact ih outside _ _
    · split
      · rfl
      · rw [ih outside, Finmap.lookup_insert_of_ne _ different]

variable [TableRecord T K]

/-- The answers of a bounded map and the map after each call. -/
inductive Answers (records : Records K T) : Operation K T R → Reply T R → Records K T → Prop where
  | duplicated {record : T} :
      TableRecord.key record ∈ records →
      Answers records (.insert record) (.inserted (.error .recordDuplicated)) records
  | refused {record : T} {e : InMemoryTableError} :
      TableRecord.key record ∉ records →
      acceptNew codec capacity recordSize records record = .error e →
      Answers records (.insert record) (.inserted (.error e)) records
  | inserted {record : T} {index : Nat} :
      TableRecord.key record ∉ records →
      acceptNew codec capacity recordSize records record = .ok () →
      records.Unused capacity index →
      Answers records (.insert record) (.inserted (.ok index))
        (records.insert (TableRecord.key record) (index, record))
  | found (key : K) :
      Answers records (.find key) (.found (.ok ((records.lookup key).map Prod.snd))) records
  | skipped {key : K} {f : T → R × T} :
      key ∉ records → Answers records (.updateWithLock key f) (.updated (.ok none)) records
  | rejected {key : K} {f : T → R × T} {index : Nat} {record : T} {e : InMemoryTableError} :
      records.lookup key = some (index, record) →
      accept codec recordSize (f record).2 = .error e →
      Answers records (.updateWithLock key f) (.updated (.error e)) records
  | updated {key : K} {f : T → R × T} {index : Nat} {record : T} :
      records.lookup key = some (index, record) →
      accept codec recordSize (f record).2 = .ok () →
      Answers records (.updateWithLock key f) (.updated (.ok (some (f record).1)))
        (records.insert key (index, (f record).2))
  | removed (key : K) :
      Answers records (.remove key) (.removed (.ok ())) (records.erase key)
  | updatedMany (keys : List K) (updater : T → T) :
      Answers records (.updateMany keys updater)
        (.updatedMany (updateMany codec recordSize updater records keys 0).1)
        (updateMany codec recordSize updater records keys 0).2

/-- Every record is stored under its own key. -/
def Keyed (records : Records K T) : Prop :=
  ∀ {key index record}, records.lookup key = some (index, record) → TableRecord.key record = key

theorem Keyed.insert {records : Records K T} (keyed : records.Keyed) {key : K} {index : Nat}
    {record : T} (same : TableRecord.key record = key) :
    Keyed (records.insert key (index, record)) := by
  intro other i value lookup
  by_cases here : other = key
  · subst here
    rw [Finmap.lookup_insert] at lookup
    cases lookup
    exact same
  · rw [Finmap.lookup_insert_of_ne _ here] at lookup
    exact keyed lookup

theorem Keyed.erase {records : Records K T} (keyed : records.Keyed) (key : K) :
    Keyed (records.erase key) := by
  intro other index record lookup
  by_cases same : other = key
  · subst same
    rw [Finmap.lookup_erase] at lookup
    cases lookup
  · rw [Finmap.lookup_erase_ne same] at lookup
    exact keyed lookup

theorem Keyed.updateMany {updater : T → T}
    (keeps : ∀ record, TableRecord.key (updater record) = (TableRecord.key record : K))
    (keys : List K) (found : Nat) {records : Records K T} (keyed : records.Keyed) :
    Keyed (Records.updateMany codec recordSize updater records keys found).2 := by
  induction keys generalizing records found with
  | nil => exact keyed
  | cons key keys ih =>
    unfold Records.updateMany
    split
    · exact ih found keyed
    · rename_i index record lookup
      split
      · exact keyed
      · exact ih _ (keyed.insert ((keeps record).trans (keyed lookup)))

variable {codec capacity recordSize}

theorem Answers.keyed {records after : Records K T} {operation : Operation K T R}
    {reply : Reply T R}
    (answers : Answers codec capacity recordSize records operation reply after)
    (keeps : operation.KeepsKey) (keyed : records.Keyed) : after.Keyed := by
  cases answers with
  | inserted => exact keyed.insert rfl
  | updated lookup => exact keyed.insert ((keeps _).trans (keyed lookup))
  | removed key => exact keyed.erase key
  | updatedMany keys updater => exact Keyed.updateMany codec recordSize keeps keys 0 keyed
  | _ => exact keyed

end Records
end InMemoryTable
