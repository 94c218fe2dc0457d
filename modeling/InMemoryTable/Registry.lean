import InMemoryTable.Records

/-! A table as its callers can know it, slot by slot. The free slots form a stack:
the slot that was freed last is the first to be filled again. Unlike the bounded map
this determines every answer, the slot numbers and the order of iteration included. -/
namespace InMemoryTable

/-- The record in each slot with the key that it is filed under, and the free slots,
the next one to be filled first. -/
structure Registry (K T : Type) where
  entry : Nat → Option (K × T)
  free : List Nat

/-- The public calls that change nothing, other than `find`. -/
inductive Query where
  | count
  | capacity
  | iter
  | keys
  deriving DecidableEq, Repr

inductive Answer (K T : Type) where
  | number (value : Nat)
  | records (records : List T)
  | keys (keys : List K)

namespace Registry
variable {K T R : Type} (codec : Bincode T) (capacity recordSize : Nat) (registry : Registry K T)

/-- A new table: all slots are free, in ascending order. -/
def new : Registry K T := { entry := fun _ => none, free := List.range capacity }

/-- The entries in slot order. -/
def entries : List (K × T) := (List.range capacity).filterMap registry.entry

def query : Query → Answer K T
  | .count => .number (registry.entries capacity).length
  | .capacity => .number capacity
  | .iter => .records ((registry.entries capacity).map Prod.snd)
  | .keys => .keys ((registry.entries capacity).map Prod.fst)

def put (index : Nat) (key : K) (record : T) : Registry K T :=
  { registry with entry := Function.update registry.entry index (some (key, record)) }

/-- The slot becomes the top of the stack. -/
def release (index : Nat) : Registry K T :=
  { entry := Function.update registry.entry index none, free := index :: registry.free }

@[simp] theorem put_entry (index : Nat) (key : K) (record : T) :
    (registry.put index key record).entry =
      Function.update registry.entry index (some (key, record)) := rfl

@[simp] theorem put_free (index : Nat) (key : K) (record : T) :
    (registry.put index key record).free = registry.free := rfl

@[simp] theorem release_entry (index : Nat) :
    (registry.release index).entry = Function.update registry.entry index none := rfl

@[simp] theorem release_free (index : Nat) :
    (registry.release index).free = index :: registry.free := rfl

variable [DecidableEq K]

/-- The slot in which a key is filed, and the record there. -/
def slotOf (key : K) : Option (Nat × T) :=
  (List.range capacity).findSome? (fun i => (registry.entry i).bind (fun (other, record) =>
    if other = key then some (i, record) else none))

def insert [TableRecord T K] (record : T) : Except InMemoryTableError Nat × Registry K T :=
  match registry.slotOf capacity (TableRecord.key record) with
  | some _ => (.error .recordDuplicated, registry)
  | none =>
    match codec.encode record with
    | .error e => (.error e, registry)
    | .ok bytes =>
      match registry.free with
      | [] => (.error (.tableFull capacity capacity), registry)
      | index :: free =>
        if bytes.length > recordSize then
          (.error (.recordSizeTooBig bytes.length recordSize), registry)
        else (.ok index, { registry.put index (TableRecord.key record) record with free })

def find (key : K) : Option T := (registry.slotOf capacity key).map Prod.snd

/-- A record that is refused leaves the old one in its slot. -/
def replace (index : Nat) (key : K) (record : T) : Except InMemoryTableError Unit × Registry K T :=
  match Records.accept codec recordSize record with
  | .error e => (.error e, registry)
  | .ok () => (.ok (), registry.put index key record)

def updateWithLock (key : K) (f : T → R × T) :
    Except InMemoryTableError (Option R) × Registry K T :=
  match registry.slotOf capacity key with
  | none => (.ok none, registry)
  | some (index, record) =>
    match registry.replace codec recordSize index key (f record).2 with
    | (.error e, registry) => (.error e, registry)
    | (.ok (), registry) => (.ok (some (f record).1), registry)

def remove (key : K) : Registry K T :=
  match registry.slotOf capacity key with
  | none => registry
  | some (index, _) => registry.release index

def updateMany (updater : T → T) : Registry K T → List K → Nat →
    Except InMemoryTableError Nat × Registry K T
  | registry, [], found => (.ok found, registry)
  | registry, key :: keys, found =>
    match registry.slotOf capacity key with
    | none => updateMany updater registry keys found
    | some (index, record) =>
      match registry.replace codec recordSize index key (updater record) with
      | (.error e, registry) => (.error e, registry)
      | (.ok (), registry) => updateMany updater registry keys (found + 1)

/-- One call of the public interface. -/
def run [TableRecord T K] : Operation K T R → Reply T R × Registry K T
  | .insert record =>
    let (result, after) := registry.insert codec capacity recordSize record
    (.inserted result, after)
  | .find key => (.found (.ok (registry.find capacity key)), registry)
  | .updateWithLock key f =>
    let (result, after) := registry.updateWithLock codec capacity recordSize key f
    (.updated result, after)
  | .remove key => (.removed (.ok ()), registry.remove capacity key)
  | .updateMany keys updater =>
    let (result, after) := updateMany codec capacity recordSize updater registry keys 0
    (.updatedMany result, after)

/-! ### The bounded map that it holds -/

variable {capacity registry}

/-- The registry files the records of the map, each in its slot. -/
def Files (registry : Registry K T) (records : Records K T) : Prop :=
  ∀ key index record,
    registry.entry index = some (key, record) ↔ records.lookup key = some (index, record)

theorem Files.slotOf_eq {records : Records K T} (files : registry.Files records)
    (bound : ∀ {key index record}, records.lookup key = some (index, record) → index < capacity)
    (key : K) : registry.slotOf capacity key = records.lookup key := by
  cases lookup : records.lookup key with
  | none =>
    apply List.findSome?_eq_none_iff.mpr
    intro i _
    cases filed : registry.entry i with
    | none => rfl
    | some entry =>
      obtain ⟨other, record⟩ := entry
      have different : other ≠ key := by
        rintro rfl
        rw [(files other i record).mp filed] at lookup
        contradiction
      simp [different]
  | some entry =>
    obtain ⟨index, record⟩ := entry
    cases found : registry.slotOf capacity key with
    | none =>
      have missing := List.findSome?_eq_none_iff.mp found index (List.mem_range.mpr (bound lookup))
      simp [(files key index record).mpr lookup] at missing
    | some result =>
      obtain ⟨i, _, same⟩ := List.exists_of_findSome?_eq_some found
      obtain ⟨⟨other, value⟩, filed, chosen⟩ := Option.bind_eq_some_iff.mp same
      simp only [Option.ite_none_right_eq_some, Option.some.injEq] at chosen
      obtain ⟨rfl, rfl⟩ := chosen
      rw [← lookup, (files other i value).mp filed]

theorem Files.empty (capacity : Nat) : (new capacity : Registry K T).Files ∅ := by
  intro key index record
  simp [new]

/-- A slot that is free, or that holds an entry of the same key, gets a new one. -/
theorem Files.put {records : Records K T} (files : registry.Files records) {key : K} {index : Nat}
    (own : ∀ other record, registry.entry index = some (other, record) → other = key)
    (slot : ∀ i record, records.lookup key = some (i, record) → i = index) (record : T) :
    (registry.put index key record).Files (records.insert key (index, record)) := by
  intro other i value
  by_cases same : other = key
  · subst same
    rw [Finmap.lookup_insert]
    by_cases here : i = index
    · subst here
      simp
    · rw [put_entry, Function.update_of_ne here, files other i value]
      constructor
      · intro lookup
        exact absurd (slot i value lookup) here
      · intro stored
        exact absurd (congrArg Prod.fst (Option.some.inj stored)).symm here
  · rw [Finmap.lookup_insert_of_ne _ same, ← files other i value]
    by_cases here : i = index
    · subst here
      simp only [put_entry, Function.update_self, Option.some.injEq, Prod.mk.injEq]
      constructor
      · rintro ⟨rfl, _⟩
        exact absurd rfl same
      · intro filed
        exact absurd (own other value filed) same
    · rw [put_entry, Function.update_of_ne here]

theorem Files.release {records : Records K T} (files : registry.Files records) {key : K}
    {index : Nat} {record : T} (lookup : records.lookup key = some (index, record)) :
    (registry.release index).Files (records.erase key) := by
  intro other i value
  by_cases here : i = index
  · subst here
    simp only [release_entry, Function.update_self, reduceCtorEq, false_iff]
    intro stored
    by_cases same : other = key
    · subst same
      simp at stored
    · rw [Finmap.lookup_erase_ne same, ← files other i value,
        (files key i record).mpr lookup] at stored
      exact same (congrArg Prod.fst (Option.some.inj stored)).symm
  · rw [release_entry, Function.update_of_ne here, files other i value]
    by_cases same : other = key
    · subst same
      rw [Finmap.lookup_erase, lookup]
      simp [Ne.symm here]
    · rw [Finmap.lookup_erase_ne same]

end Registry
end InMemoryTable
