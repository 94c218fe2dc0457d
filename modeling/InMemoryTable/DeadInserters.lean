import InMemoryTable.RegistryRun
import InMemoryTable.StoreSteps

/-! Processes that die while they insert into a store whose calls exclude each other, as
those on the nodes of an index do. `SEM_UNDO` gives the semaphore back, and those who
come next find the store as the last store of the dead process left it. An insertion
that ends after `first_free` was moved but before `count` was raised lets later
insertions leave the table; one that ends between `count` and the state of the slot
does so to iterators. Any other end costs the slot. -/
namespace InMemoryTable
open Transition

variable {B : Type}

namespace InsertStage

/-- The slots after some stores of an insertion. -/
def stopped : Nat → Slots B → InsertStage B → Slots B
  | 0, slots, _ => slots
  | stores + 1, slots, stage =>
    match stage.advance slots with
    | none => slots
    | some (_, slots, next) => stopped stores slots next

theorem stopped_leaving (stores : Nat) (slots : Slots B) :
    stopped stores slots .leaving = slots := by
  cases stores <;> rfl

end InsertStage

namespace Slots

/-- The process dies after this many stores of `insert`. -/
def insertStopped (self : Slots B) (stores : Nat) (data : List B) : Slots B :=
  (InsertStage.entered data).stopped stores self

/-- The process dies between `record.size = data.len()` and the copy of the bytes. -/
def updateStopped (self : Slots B) (index : Nat) (data : List B) : Slots B :=
  (self.writeState index .occupied).writeSize index data.length

variable {store slots : Slots B} {index stores : Nat} {data : List B}

theorem writeSize_state (self : Slots B) (index size i : Nat) :
    ((self.writeSize index size).slot i).state = (self.slot i).state := by
  by_cases same : i = index
  · subst same
    rw [writeSize_self]
  · rw [writeSize_other same]

/-- Whatever the free list says, an insertion takes `first_free`. -/
theorem insert_first (room : store.header.count < store.header.capacity)
    (fits : data.length ≤ store.maxData) : (store.insert data).1 = .ok store.header.firstFree := by
  simp only [insert, ge_iff_le, Nat.not_le.mpr room, gt_iff_lt, Nat.not_lt.mpr fits, if_false]

/-- The first slot of the free list is gone, and nothing happened to the others. -/
structure Popped (store : Slots B) (index stores : Nat) (slots : Slots B) : Prop where
  first : store.header.firstFree = index
  firstFree : slots.header.firstFree = (store.slot index).size
  count : slots.header.count = store.header.count + if 1 < stores then 1 else 0
  capacity : slots.header.capacity = store.header.capacity
  slotSize : slots.header.slotSize = store.header.slotSize
  state : (slots.slot index).state = if 2 < stores then .occupied else (store.slot index).state
  others : ∀ i ≠ index, slots.slot i = store.slot i

theorem entered_ok (accepted : store.insert data = (.ok index, slots)) :
    (InsertStage.entered data).advance store =
        some (.stored, store.writeFirstFree (store.slot index).size, .addCount index data) ∧
      store.header.firstFree = index := by
  simp only [insert] at accepted
  split at accepted
  · cases accepted
  · rename_i room
    split at accepted
    · cases accepted
    · rename_i fits
      cases accepted
      exact ⟨by simp only [InsertStage.advance, room, fits, if_false], rfl⟩

theorem insertStopped_popped (accepted : store.insert data = (.ok index, slots))
    (some : 0 < stores) : Popped store index stores (store.insertStopped stores data) := by
  obtain ⟨entered, first⟩ := entered_ok accepted
  obtain ⟨stores, rfl⟩ := Nat.exists_eq_succ_of_ne_zero (Nat.ne_of_gt some)
  rw [insertStopped, InsertStage.stopped, entered]
  let counted := (store.writeFirstFree (store.slot index).size).addCount
  have state : ((counted.writeState index .occupied).slot index).state = .occupied := by
    simp [writeState]
  have others : ∀ i ≠ index, (counted.writeState index .occupied).slot i = store.slot i :=
    fun i different => Function.update_of_ne different ..
  -- one case for each of the five stores that was the last
  obtain _ | _ | _ | _ | stores := stores
  · exact ⟨first, rfl, rfl, rfl, rfl, rfl, fun _ _ => rfl⟩
  · exact ⟨first, rfl, rfl, rfl, rfl, rfl, fun _ _ => rfl⟩
  · exact ⟨first, rfl, rfl, rfl, rfl, state, others⟩
  · refine ⟨first, rfl, rfl, rfl, rfl, (writeSize_state ..).trans state, fun i different => ?_⟩
    exact (writeSize_other different).trans (others i different)
  · simp only [InsertStage.stopped, InsertStage.advance, InsertStage.stopped_leaving]
    refine ⟨first, rfl, rfl, rfl, rfl, ?_, fun i different => ?_⟩
    · rw [if_pos (by omega), copyBytes_self]
      exact (writeSize_state ..).trans state
    · exact (copyBytes_other different).trans
        ((writeSize_other different).trans (others i different))

/-- After all five stores the insertion is complete. -/
theorem insertStopped_all (accepted : store.insert data = (.ok index, slots)) (stores : Nat) :
    store.insertStopped (stores + 5) data = slots := by
  obtain ⟨entered, first⟩ := entered_ok accepted
  rw [insertStopped, InsertStage.stopped, entered]
  simp only [InsertStage.stopped, InsertStage.advance, InsertStage.stopped_leaving,
    setRecordData_steps]
  simp only [insert] at accepted
  split at accepted
  · cases accepted
  · split at accepted
    · cases accepted
    · cases accepted
      rfl

theorem insert_popped (accepted : store.insert data = (.ok index, slots)) :
    Popped store index 5 slots ∧ slots.get index = data := by
  refine ⟨?_, ?_⟩
  · have popped := insertStopped_popped accepted (show 0 < 5 by decide)
    rwa [insertStopped_all accepted 0] at popped
  · obtain ⟨entered, _⟩ := entered_ok accepted
    rw [← insertStopped_all accepted 0, insertStopped, InsertStage.stopped, entered]
    simp only [InsertStage.stopped, InsertStage.advance, setRecordData_steps, get_setRecordData]

end Slots

/-! ### Who has which slot -/

/-- The slots that were filled and not removed since, with their bytes, and the slots
that were lost, each with the number of stores its process got to. -/
structure Tally (B : Type) where
  live : List Nat
  data : Nat → List B
  lost : List (Nat × Nat)

namespace Tally
variable (tally : Tally B)

def empty : Tally B := { live := [], data := fun _ => [], lost := [] }

/-- Every slot that is not free. -/
def taken : List Nat := tally.live ++ tally.lost.map Prod.fst

/-- The slots that were lost before `count` was raised. -/
def uncounted : Nat := tally.lost.countP (·.2 = 1)

def write (index : Nat) (data : List B) : Tally B :=
  { tally with data := Function.update tally.data index data }

def insert (index : Nat) (data : List B) : Tally B :=
  { tally.write index data with live := index :: tally.live }

def lose (index stores : Nat) : Tally B :=
  { tally with lost := (index, stores) :: tally.lost }

def remove (index : Nat) : Tally B := { tally with live := tally.live.erase index }

variable (index stores : Nat) (data : List B)

@[simp] theorem write_data :
    (tally.write index data).data = Function.update tally.data index data := rfl

@[simp] theorem insert_lost : (tally.insert index data).lost = tally.lost := rfl

@[simp] theorem insert_data :
    (tally.insert index data).data = Function.update tally.data index data := rfl

@[simp] theorem insert_taken : (tally.insert index data).taken = index :: tally.taken := rfl

theorem lose_taken : (tally.lose index stores).taken.Perm (index :: tally.taken) :=
  List.perm_middle

theorem lose_uncounted :
    (tally.lose index stores).uncounted = tally.uncounted + if stores = 1 then 1 else 0 := by
  simp [uncounted, lose, List.countP_cons]

variable {tally index stores} in
theorem lost_taken (member : (index, stores) ∈ tally.lost) : index ∈ tally.taken :=
  List.mem_append_right _ (List.mem_map_of_mem (f := Prod.fst) member)

variable {tally index} in
theorem remove_taken (member : index ∈ tally.live) :
    tally.taken.Perm (index :: (tally.remove index).taken) :=
  (List.perm_cons_erase member).append_right _

end Tally

inductive TallyEvent where
  | failed
  | inserted
  | died (stores : Nat)
  | updated
  | tore
  | removed

/-- One call, or as much of it as its process lived to do. Callers know only of slots
whose insertion was completed, and of each until they remove it. An insertion is a
step as long as its slot is in the table. -/
inductive TallyStep : Slots B × Tally B → TallyEvent → Slots B × Tally B → Prop where
  | failed {store after : Slots B} {tally : Tally B} {data : List B} {e : InMemoryTableError} :
      store.insert data = (.error e, after) → TallyStep (store, tally) .failed (after, tally)
  | inserted {store after : Slots B} {tally : Tally B} {data : List B} {index : Nat} :
      store.insert data = (.ok index, after) → index < store.header.capacity →
      TallyStep (store, tally) .inserted (after, tally.insert index data)
  | died {store whole : Slots B} {tally : Tally B} {data : List B} {index stores : Nat} :
      store.insert data = (.ok index, whole) → index < store.header.capacity → 0 < stores →
      TallyStep (store, tally) (.died stores)
        (store.insertStopped stores data, tally.lose index stores)
  | updated {store after : Slots B} {tally : Tally B} {data : List B} {index : Nat} :
      index ∈ tally.live → store.update index data = (.ok (), after) →
      TallyStep (store, tally) .updated (after, tally.write index data)
  | tore {store : Slots B} {tally : Tally B} {data : List B} {index : Nat} :
      index ∈ tally.live → data.length ≤ store.maxData → TallyStep (store, tally) .tore
        (store.updateStopped index data,
          tally.write index ((store.updateStopped index data).get index))
  | removed {store : Slots B} {tally : Tally B} {index : Nat} : index ∈ tally.live →
      TallyStep (store, tally) .removed (store.remove index, tally.remove index)

/-- The store agrees with the tally, and `free` are the slots behind `first_free`. -/
structure Accounts (capacity dataSize : Nat) (store : Slots B) (tally : Tally B)
    (free : List Nat) : Prop where
  limit : store.header.capacity = capacity
  size : store.maxData = dataSize
  linked : Chain.Linked id (fun i => (store.slot i).size) store.header.firstFree free capacity
  once : (tally.taken ++ free).Perm (List.range capacity)
  count : store.header.count + tally.uncounted = tally.taken.length
  live : ∀ i ∈ tally.live, (store.slot i).state = .occupied ∧ store.get i = tally.data i
  lost : ∀ i stores, (i, stores) ∈ tally.lost → 0 < stores ∧
    (store.slot i).state = if 2 < stores then .occupied else .free
  free : ∀ i ∈ free, (store.slot i).state = .free

namespace Accounts
variable {capacity dataSize index stores : Nat} {store slots : Slots B} {tally : Tally B}
  {free rest : List Nat} {data : List B}

theorem new (memory : Nat → Slot B) (capacity : Nat) {dataSize : Nat}
    (small : Slots.slotMetadataSize + dataSize < usizeModulus) :
    Accounts capacity dataSize (.new memory capacity dataSize) .empty (List.range capacity) where
  limit := by simp [Slots.new_header, SlotsHeader.new]
  size := (Slots.new_sized memory capacity small).maxData
  linked := by
    have linked := (Slots.new_freeList memory capacity dataSize).linked
    rwa [show (Slots.new memory capacity dataSize).header.capacity = capacity by
      simp [Slots.new_header, SlotsHeader.new]] at linked
  once := .refl _
  count := by simp [Slots.new_header, SlotsHeader.new, Tally.empty, Tally.taken, Tally.uncounted]
  live := nofun
  lost := nofun
  free i member := by rw [Slots.new_slot _ _ _ _ (List.mem_range.mp member)]

theorem total (accounts : Accounts capacity dataSize store tally free) :
    tally.taken.length + free.length = capacity := by
  simpa using accounts.once.length_eq

theorem distinct (accounts : Accounts capacity dataSize store tally (index :: rest)) :
    index ∉ tally.taken ∧ index ∉ rest ∧ index < capacity := by
  have nodup : (tally.taken ++ index :: rest).Nodup := accounts.once.nodup_iff.mpr List.nodup_range
  have apart := List.disjoint_of_nodup_append nodup
  refine ⟨fun inside => apart inside List.mem_cons_self, ?_, ?_⟩
  · exact (List.nodup_cons.mp (List.Nodup.of_append_right nodup)).1
  · exact List.mem_range.mp (accounts.once.subset (List.mem_append_right _ List.mem_cons_self))

theorem inside (accounts : Accounts capacity dataSize store tally free)
    (taken : index ∈ tally.taken) : index < capacity :=
  List.mem_range.mp (accounts.once.subset (List.mem_append_left _ taken))

/-- An insertion that stays in the table takes the head of the free list. -/
theorem head (accounts : Accounts capacity dataSize store tally free)
    (first : store.header.firstFree = index) (inside : index < capacity) :
    ∃ rest, free = index :: rest := by
  have linked := accounts.linked
  cases free with
  | nil =>
    have stop : store.header.firstFree = capacity := linked
    omega
  | cons other rest =>
    have start : store.header.firstFree = other := linked.1
    exact ⟨rest, by rw [← first, start]⟩

theorem popped (accounts : Accounts capacity dataSize store tally (index :: rest))
    (popped : Slots.Popped store index stores slots) :
    slots.maxData = dataSize ∧
      Chain.Linked id (fun i => (slots.slot i).size) slots.header.firstFree rest capacity ∧
      ∀ i ∈ rest, (slots.slot i).state = .free := by
  obtain ⟨_, outside, _⟩ := accounts.distinct
  refine ⟨?_, ?_, fun i member => ?_⟩
  · rw [Slots.maxData, popped.slotSize]
    exact accounts.size
  · rw [popped.firstFree]
    exact accounts.linked.2.congr (fun i member => by
      rw [popped.others i (ne_of_mem_of_not_mem member outside)])
  · rw [popped.others i (ne_of_mem_of_not_mem member outside)]
    exact accounts.free i (List.mem_cons_of_mem _ member)

theorem inserted (accounts : Accounts capacity dataSize store tally (index :: rest))
    (done : Slots.Popped store index 5 slots) (stored : slots.get index = data) :
    Accounts capacity dataSize slots (tally.insert index data) rest := by
  obtain ⟨untaken, _, _⟩ := accounts.distinct
  obtain ⟨size, linked, free⟩ := accounts.popped done
  refine ⟨done.capacity.trans accounts.limit, size, linked, ?_, ?_, fun i member => ?_,
    fun i stores member => ?_, free⟩
  · exact List.perm_middle.symm.trans accounts.once
  · rw [done.count, Tally.insert_taken, List.length_cons, ← accounts.count]
    exact Nat.add_right_comm ..
  · rcases List.mem_cons.mp member with rfl | member
    · exact ⟨done.state, by rw [stored, Tally.insert_data, Function.update_self]⟩
    · have other : i ≠ index := ne_of_mem_of_not_mem (List.mem_append_left _ member) untaken
      rw [done.others i other, Slots.get_congr (done.others i other), Tally.insert_data,
        Function.update_of_ne other]
      exact accounts.live i member
  · rw [Tally.insert_lost] at member
    rw [done.others i (ne_of_mem_of_not_mem (Tally.lost_taken member) untaken)]
    exact accounts.lost i stores member

theorem died (accounts : Accounts capacity dataSize store tally (index :: rest))
    (done : Slots.Popped store index stores slots) (some : 0 < stores) :
    Accounts capacity dataSize slots (tally.lose index stores) rest := by
  obtain ⟨untaken, _, _⟩ := accounts.distinct
  obtain ⟨size, linked, free⟩ := accounts.popped done
  have taken := tally.lose_taken index stores
  refine ⟨done.capacity.trans accounts.limit, size, linked, ?_, ?_, fun i member => ?_,
    fun i count member => ?_, free⟩
  · exact (taken.append_right rest).trans (List.perm_middle.symm.trans accounts.once)
  · have counted := accounts.count
    rw [done.count, Tally.lose_uncounted, taken.length_eq, List.length_cons]
    split <;> split <;> omega
  · have other : i ≠ index := ne_of_mem_of_not_mem (List.mem_append_left _ member) untaken
    rw [done.others i other, Slots.get_congr (done.others i other)]
    exact accounts.live i member
  · rcases List.mem_cons.mp member with same | member
    · cases same
      rw [done.state, accounts.free index List.mem_cons_self]
      exact ⟨some, rfl⟩
    · rw [done.others i (ne_of_mem_of_not_mem (Tally.lost_taken member) untaken)]
      exact accounts.lost i count member

theorem nodup (accounts : Accounts capacity dataSize store tally free) :
    (tally.taken ++ free).Nodup :=
  accounts.once.nodup_iff.mpr List.nodup_range

/-- Writing to a slot that is filled. -/
theorem wrote (accounts : Accounts capacity dataSize store tally free)
    (filled : index ∈ tally.live) (header : slots.header = store.header)
    (state : (slots.slot index).state = .occupied) (stored : slots.get index = data)
    (others : ∀ i ≠ index, slots.slot i = store.slot i) :
    Accounts capacity dataSize slots (tally.write index data) free := by
  have unlisted : index ∉ free :=
    List.disjoint_of_nodup_append accounts.nodup (List.mem_append_left _ filled)
  have unlost : ∀ i stores, (i, stores) ∈ tally.lost → i ≠ index := by
    have apart := List.disjoint_of_nodup_append (List.Nodup.of_append_left accounts.nodup)
    rintro i stores member rfl
    exact apart filled (List.mem_map_of_mem (f := Prod.fst) member)
  refine ⟨by rw [header]; exact accounts.limit, ?_, ?_, accounts.once, ?_, fun i member => ?_,
    fun i stores member => ?_, fun i member => ?_⟩
  · rw [Slots.maxData, header]
    exact accounts.size
  · rw [header]
    exact accounts.linked.congr (fun i member => by
      rw [others i (ne_of_mem_of_not_mem member unlisted)])
  · rw [header]
    exact accounts.count
  · by_cases same : i = index
    · subst same
      exact ⟨state, by rw [stored, Tally.write_data, Function.update_self]⟩
    · rw [others i same, Slots.get_congr (others i same), Tally.write_data,
        Function.update_of_ne same]
      exact accounts.live i member
  · rw [others i (unlost i stores member)]
    exact accounts.lost i stores member
  · rw [others i (ne_of_mem_of_not_mem member unlisted)]
    exact accounts.free i member

/-- The counter covers the filled slots. -/
theorem count_pos (accounts : Accounts capacity dataSize store tally free)
    (filled : index ∈ tally.live) : 0 < store.header.count := by
  have counted := accounts.count
  have some := List.length_pos_of_mem filled
  have below : tally.uncounted ≤ tally.lost.length := List.countP_le_length
  rw [Tally.taken, List.length_append, List.length_map] at counted
  omega

theorem removed (accounts : Accounts capacity dataSize store tally free)
    (filled : index ∈ tally.live) :
    Accounts capacity dataSize (store.remove index) (tally.remove index) (index :: free) := by
  have taken := Tally.remove_taken filled
  have once := (taken.append_right free).symm.trans accounts.once
  have nodup : (index :: ((tally.remove index).taken ++ free)).Nodup :=
    once.nodup_iff.mpr List.nodup_range
  have outside := (List.nodup_cons.mp nodup).1
  have unlisted : index ∉ free := fun member => outside (List.mem_append_right _ member)
  refine ⟨accounts.limit, accounts.size, ?_, List.perm_middle.trans once, ?_, fun i member => ?_,
    fun i stores member => ?_, fun i member => ?_⟩
  · refine accounts.linked.push (a := index) ?_ (fun i member => ?_)
    · rw [Slots.remove_self]
    · rw [Slots.remove_other (ne_of_mem_of_not_mem member unlisted)]
  · have counted := accounts.count
    have positive := accounts.count_pos filled
    rw [taken.length_eq, List.length_cons] at counted
    change wrappingDecrement store.header.count + tally.uncounted = _
    rw [wrappingDecrement, if_neg (Nat.ne_of_gt positive)]
    omega
  · have other : i ≠ index :=
      ne_of_mem_of_not_mem (List.mem_append_left _ (List.mem_append_left _ member)) outside
    rw [Slots.remove_other other, Slots.get_congr (Slots.remove_other other)]
    exact accounts.live i (List.mem_of_mem_erase member)
  · rw [Slots.remove_other (ne_of_mem_of_not_mem
      (List.mem_append_left _ (Tally.lost_taken member)) outside)]
    exact accounts.lost i stores member
  · rcases List.mem_cons.mp member with rfl | member
    · rw [Slots.remove_self]
    · rw [Slots.remove_other (ne_of_mem_of_not_mem member unlisted)]
      exact accounts.free i member

theorem step {state next : Slots B × Tally B} {event : TallyEvent}
    (accounts : ∃ free, Accounts capacity dataSize state.1 state.2 free)
    (stepped : TallyStep state event next) :
    ∃ free, Accounts capacity dataSize next.1 next.2 free := by
  obtain ⟨free, accounts⟩ := accounts
  cases stepped with
  | failed refused =>
    obtain rfl := Slots.insert_error refused
    exact ⟨free, accounts⟩
  | inserted accepted inside =>
    obtain ⟨done, stored⟩ := Slots.insert_popped accepted
    obtain ⟨rest, rfl⟩ := accounts.head done.first (inside.trans_eq accounts.limit)
    exact ⟨rest, accounts.inserted done stored⟩
  | died accepted inside some =>
    have done := Slots.insertStopped_popped accepted some
    obtain ⟨rest, rfl⟩ := accounts.head done.first (inside.trans_eq accounts.limit)
    exact ⟨rest, accounts.died done some⟩
  | @updated store after tally data index filled wrote =>
    simp only [Slots.update] at wrote
    split at wrote
    · cases wrote
    · cases wrote
      exact ⟨free, accounts.wrote filled rfl (by rw [Slots.setRecordData_self])
        Slots.get_setRecordData (fun i other => Slots.setRecordData_other other)⟩
  | @tore store tally data index filled fits =>
    refine ⟨free, accounts.wrote filled rfl ?_ rfl (fun i other => ?_)⟩
    · exact (Slots.writeSize_state ..).trans (by simp [Slots.writeState])
    · exact (Slots.writeSize_other other).trans (Function.update_of_ne other ..)
  | removed filled => exact ⟨_, accounts.removed filled⟩

/-- The next insertion, if its data fits. -/
theorem insert_next (accounts : Accounts capacity dataSize store tally free)
    (fits : data.length ≤ dataSize) :
    (tally.taken.length = capacity → (store.insert data).1 =
      if tally.uncounted = 0 then .error (.tableFull capacity capacity) else .ok capacity) ∧
    (tally.taken.length < capacity →
      ∃ i < capacity, i ∉ tally.taken ∧ (store.insert data).1 = .ok i) := by
  have total := accounts.total
  have counted := accounts.count
  have fits : data.length ≤ store.maxData := fits.trans_eq accounts.size.symm
  refine ⟨fun none => ?_, fun room => ?_⟩
  · obtain rfl : free = [] := List.length_eq_zero_iff.mp (by omega)
    have stop : store.header.firstFree = capacity := accounts.linked
    by_cases all : tally.uncounted = 0
    · have full : store.header.count = capacity := by omega
      rw [if_pos all, Slots.insert_full (by rw [full, accounts.limit]), full, accounts.limit]
    · rw [if_neg all, Slots.insert_first (by rw [accounts.limit]; omega) fits, stop]
  · cases free with
    | nil =>
      rw [List.length_nil] at total
      omega
    | cons index rest =>
      obtain ⟨untaken, _, inside⟩ := accounts.distinct
      have start : store.header.firstFree = index := accounts.linked.1
      refine ⟨index, inside, untaken, ?_⟩
      rw [Slots.insert_first (by rw [accounts.limit]; omega) fits, start]

end Accounts

/-! ### Iterators -/

namespace Slots
variable {store : Slots B} {iterator : SlotsIterator}

/-- A call of `next` that returns. -/
def NextStep (store : Slots B) (iterator : SlotsIterator) (outcome : SlotsIterator.Outcome B)
    (following : SlotsIterator) : Prop :=
  (∃ fuel, store.next fuel iterator = some outcome) ∧ following = outcome.iterator

theorem overruns (more : iterator.found + (store.ahead iterator.current).card < store.count) :
    ∃ outcomes last, Run store.NextStep iterator outcomes last ∧ ¬ store.NextWithin last := by
  induction card : (store.ahead iterator.current).card generalizing iterator with
  | zero =>
    refine ⟨[], iterator, .refl _, fun within => ?_⟩
    have some := nextWithin_iff.mp within (by omega)
    rw [Finset.card_eq_zero.mp card] at some
    exact Finset.not_nonempty_empty some
  | succ left ih =>
    have within : store.NextWithin iterator :=
      nextWithin_iff.mpr (fun _ => Finset.card_pos.mp (by omega))
    obtain ⟨fuel, outcome, returned, _⟩ := id within
    obtain ⟨finished, _⟩ | ⟨_, found, same⟩ := next_cases within returned
    · omega
    · obtain ⟨outcomes, last, run, outside⟩ := @ih outcome.iterator (by omega) (by omega)
      exact ⟨_, last, .next ⟨⟨fuel, returned⟩, rfl⟩ run, outside⟩

/-- A whole iteration stays within the table exactly if the counter does not exceed
the number of slots marked as occupied. -/
theorem iterates_iff : (∀ outcomes iterator, Run store.NextStep iter outcomes iterator →
    store.NextWithin iterator) ↔ store.count ≤ (store.ahead 0).card := by
  constructor
  · intro within
    by_contra more
    have more : iter.found + (store.ahead iter.current).card < store.count := by
      change 0 + (store.ahead 0).card < store.count
      omega
    obtain ⟨outcomes, last, run, outside⟩ := overruns more
    exact outside (within outcomes last run)
  · intro enough outcomes iterator run
    have kept : store.count ≤ iterator.found + (store.ahead iterator.current).card := by
      refine run.invariant (P := fun iterator : SlotsIterator =>
        store.count ≤ iterator.found + (store.ahead iterator.current).card) ?_ ?_
      · rintro before outcome after kept ⟨⟨fuel, returned⟩, rfl⟩
        have within : store.NextWithin before :=
          nextWithin_iff.mpr (fun _ => Finset.card_pos.mp (by omega))
        obtain ⟨_, same⟩ | ⟨_, found, card⟩ := next_cases within returned
        · rwa [same]
        · omega
      · change store.count ≤ 0 + (store.ahead 0).card
        omega
    exact nextWithin_iff.mpr (fun _ => Finset.card_pos.mp (by omega))

end Slots

namespace Tally

/-- How far the insertions got that were lost. -/
theorem lost_length {lost : List (Nat × Nat)}
    (some : ∀ i stores, (i, stores) ∈ lost → 0 < stores) :
    lost.length = lost.countP (·.2 = 1) + lost.countP (·.2 = 2) + lost.countP (2 < ·.2) := by
  induction lost with
  | nil => rfl
  | cons entry rest ih =>
    have rest := ih (fun i stores member => some i stores (List.mem_cons_of_mem _ member))
    have positive := some entry.1 entry.2 List.mem_cons_self
    simp only [List.length_cons, List.countP_cons, decide_eq_true_eq]
    split_ifs <;> omega

end Tally

namespace Accounts
variable {capacity dataSize : Nat} {store : Slots B} {tally : Tally B} {free : List Nat}

theorem card_ahead (accounts : Accounts capacity dataSize store tally free) :
    (store.ahead 0).card = tally.live.length + tally.lost.countP (2 < ·.2) := by
  let marked := tally.live ++ (tally.lost.filter (2 < ·.2)).map Prod.fst
  have nodup : marked.Nodup := by
    refine (List.Nodup.of_append_left accounts.nodup).sublist ?_
    exact List.Sublist.append_left (List.filter_sublist.map _) _
  have same : store.ahead 0 = marked.toFinset := by
    ext i
    rw [Slots.mem_ahead, List.mem_toFinset, List.mem_append, List.mem_map]
    simp only [Nat.zero_le, true_and, Slots.Occupied, accounts.limit]
    constructor
    · rintro ⟨inside, state⟩
      have listed := accounts.once.symm.subset (List.mem_range.mpr inside)
      rcases List.mem_append.mp listed with taken | unused
      · rcases List.mem_append.mp taken with filled | lost
        · exact .inl filled
        · obtain ⟨⟨i, stores⟩, member, rfl⟩ := List.mem_map.mp lost
          refine .inr ⟨(i, stores), List.mem_filter.mpr ⟨member, ?_⟩, rfl⟩
          rw [(accounts.lost i stores member).2] at state
          simpa using state
      · rw [accounts.free i unused] at state
        cases state
    · rintro (filled | ⟨⟨i, stores⟩, member, rfl⟩)
      · exact ⟨accounts.inside (List.mem_append_left _ filled), (accounts.live i filled).1⟩
      · obtain ⟨member, marked⟩ := List.mem_filter.mp member
        refine ⟨accounts.inside (Tally.lost_taken member), ?_⟩
        rw [(accounts.lost i stores member).2, if_pos (by simpa using marked)]
  rw [same, List.toFinset_card_of_nodup nodup, List.length_append, List.length_map,
    ← List.countP_eq_length_filter]

/-- The counter covers the slots that are marked as occupied and those that were lost
right before they were marked. -/
theorem count_eq (accounts : Accounts capacity dataSize store tally free) :
    store.count = (store.ahead 0).card + tally.lost.countP (·.2 = 2) := by
  have counted := accounts.count
  have lost := Tally.lost_length (fun i stores member => (accounts.lost i stores member).1)
  rw [accounts.card_ahead]
  simp only [Tally.taken, Tally.uncounted, List.length_append, List.length_map] at counted
  simp only [Slots.count]
  omega

/-- Insertions use up the free slots. -/
theorem fills (accounts : Accounts capacity dataSize store tally free) :
    ∃ more later tally', Run TallyStep (store, tally) more (later, tally') ∧
      tally'.lost = tally.lost ∧ Accounts capacity dataSize later tally' [] := by
  induction free generalizing store tally with
  | nil => exact ⟨[], store, tally, .refl _, rfl, accounts⟩
  | cons index rest ih =>
    have total := accounts.total
    rw [List.length_cons] at total
    obtain ⟨i, inside, _, accepted⟩ := (accounts.insert_next
      (show ([] : List B).length ≤ dataSize from Nat.zero_le _)).2 (by omega)
    have accepted : store.insert [] = (.ok i, (store.insert []).2) := Prod.ext accepted rfl
    obtain ⟨done, stored⟩ := Slots.insert_popped accepted
    obtain ⟨_, same⟩ := accounts.head done.first inside
    cases same
    obtain ⟨more, later, tally', run, lost, full⟩ := ih (accounts.inserted done stored)
    exact ⟨_, later, tally', .next (.inserted accepted (inside.trans_eq accounts.limit.symm)) run,
      lost, full⟩

end Accounts

/-- In every run with any deaths, up to the first insertion that gets a slot outside,
the slots that were filled keep their bytes, and a slot that is neither filled nor lost
serves the next insertion. When there is none, the insertion is refused, unless an
insertion died after its first store: then it gets a slot outside, and such a state is
always ahead. An iteration gets out of the table exactly if an insertion died after its
second store. -/
theorem dead_inserters (memory : Nat → Slot B) (capacity dataSize : Nat)
    (fits : Slots.SizeFits 0 capacity dataSize) {events : List TallyEvent}
    {store : Slots B} {tally : Tally B}
    (run : Run TallyStep (.new memory capacity dataSize, .empty) events (store, tally)) :
    (∀ i ∈ tally.live, store.get i = tally.data i) ∧
    (tally.taken.Nodup ∧ ∀ i ∈ tally.taken, i < capacity) ∧
    (∀ data : List B, data.length ≤ dataSize →
      (tally.taken.length = capacity → (store.insert data).1 =
        if tally.uncounted = 0 then .error (.tableFull capacity capacity) else .ok capacity) ∧
      (tally.taken.length < capacity →
        ∃ i < capacity, i ∉ tally.taken ∧ (store.insert data).1 = .ok i)) ∧
    (0 < tally.uncounted → ∃ more later tally',
      Run TallyStep (store, tally) more (later, tally') ∧
        ∀ data : List B, data.length ≤ dataSize → (later.insert data).1 = .ok capacity) ∧
    ((∀ outcomes iterator, Run store.NextStep Slots.iter outcomes iterator →
        store.NextWithin iterator) ↔ ∀ i, (i, 2) ∉ tally.lost) := by
  obtain ⟨free, accounts⟩ : ∃ free, Accounts capacity dataSize store tally free :=
    run.invariant (P := fun state => ∃ free, Accounts capacity dataSize state.1 state.2 free)
      Accounts.step ⟨_, .new memory capacity fits.stride⟩
  refine ⟨fun i filled => (accounts.live i filled).2,
    ⟨List.Nodup.of_append_left accounts.nodup, fun i member => accounts.inside member⟩,
    fun data fits => accounts.insert_next fits, fun uncounted => ?_, ?_⟩
  · obtain ⟨more, later, tally', run, lost, full⟩ := accounts.fills
    refine ⟨more, later, tally', run, fun data fits => ?_⟩
    have uncounted' : tally'.uncounted ≠ 0 := by
      rw [Tally.uncounted, lost]
      exact Nat.ne_of_gt uncounted
    rw [(full.insert_next fits).1 (by simpa using full.total), if_neg uncounted']
  · rw [Slots.iterates_iff, accounts.count_eq]
    have hidden : tally.lost.countP (·.2 = 2) = 0 ↔ ∀ i, (i, 2) ∉ tally.lost := by
      rw [List.countP_eq_zero]
      refine ⟨fun none i member => none _ member rfl, fun none entry member => ?_⟩
      simp only [decide_eq_true_eq]
      rintro second
      exact none entry.1 (second ▸ member)
    rw [← hidden]
    omega

/-- One insertion is completed; the next one dies after its first store. -/
theorem dead_inserters_sample :
    ∃ store tally, Run TallyStep (Slots.emptyStore, Tally.empty) [.inserted, .died 1]
        (store, tally) ∧ store.get 0 = [7] ∧ tally.taken = [0, 1] ∧
      (store.insert [9]).1 = .ok 2 ∧
      ∀ outcomes iterator, Run store.NextStep Slots.iter outcomes iterator →
        store.NextWithin iterator := by
  have first : Slots.emptyStore.insert [7] = (.ok 0, (Slots.emptyStore.insert [7]).2) := rfl
  have second : (Slots.emptyStore.insert [7]).2.insert [8] = (.ok 1, _) := rfl
  have run : Run TallyStep (Slots.emptyStore, Tally.empty) [.inserted, .died 1] _ :=
    .next (.inserted first (by decide)) (.next (.died second (by decide) Nat.one_pos) (.refl _))
  obtain ⟨kept, _, next, _, iterates⟩ := dead_inserters _ 2 1 ⟨by decide, by decide⟩ run
  exact ⟨_, _, run, kept 0 (by decide), rfl, (next [9] (by decide)).1 rfl,
    iterates.mpr (fun i => by simp [Tally.lose, Tally.insert, Tally.write, Tally.empty])⟩

end InMemoryTable
