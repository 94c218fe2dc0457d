import InMemoryTable.Layout
import InMemoryTable.Library.Transition
import InMemoryTable.SlotsInvariant

/-! Every sequence of slot calls from a new store keeps the counter and the
free list exact; what an insertion can do follows in every reachable store. -/
namespace InMemoryTable
open Transition

inductive SlotsCall (B : Type) where
  | insert (data : List B)
  | update (index : Nat) (data : List B)
  | remove (index : Nat)

namespace SlotsCall
variable {B : Type}

/-- Updates and removals are issued for slots in use only. -/
def Allowed (store : Slots B) : SlotsCall B → Prop
  | .insert _ => True
  | .update index _ => store.Occupied index
  | .remove index => store.Occupied index

instance (store : Slots B) (call : SlotsCall B) : Decidable (call.Allowed store) :=
  match call with
  | .insert _ => isTrue trivial
  | .update index _ => inferInstanceAs (Decidable (store.Occupied index))
  | .remove index => inferInstanceAs (Decidable (store.Occupied index))

def apply (store : Slots B) : SlotsCall B → Slots B
  | .insert data => (store.insert data).2
  | .update index data => (store.update index data).2
  | .remove index => store.remove index

def Step (store : Slots B) (call : SlotsCall B) (after : Slots B) : Prop :=
  call.Allowed store ∧ after = call.apply store

end SlotsCall

namespace Slots
variable {B : Type} {store after : Slots B}

/-- The three outcomes of an insertion. -/
theorem WellFormed.insert_cases (wf : store.WellFormed) (data : List B) :
    (store.header.capacity ≤ store.header.count ∧ store.insert data =
      (.error (.tableFull store.header.count store.header.capacity), store)) ∨
    (store.header.count < store.header.capacity ∧ store.maxData < data.length ∧
      store.insert data = (.error (.recordSizeTooBig data.length store.maxData), store)) ∨
    (store.header.count < store.header.capacity ∧ data.length ≤ store.maxData ∧
      ∃ index after, store.insert data = (.ok index, after) ∧ Inserted store index data after) := by
  rcases Nat.lt_or_ge store.header.count store.header.capacity with room | full
  · rcases Nat.lt_or_ge store.maxData data.length with big | fits
    · exact .inr (.inl ⟨room, big, insert_tooBig room big⟩)
    · exact .inr (.inr ⟨room, fits, wf.insert_ok room fits⟩)
  · exact .inl ⟨full, insert_full full⟩

/-- The two outcomes of an update of a slot in use. -/
theorem WellFormed.update_cases (wf : store.WellFormed) {index : Nat}
    (occupied : store.Occupied index) (data : List B) :
    (store.maxData < data.length ∧
      store.update index data = (.error (.recordSizeTooBig data.length store.maxData), store)) ∨
    (data.length ≤ store.maxData ∧ ∃ after,
      store.update index data = (.ok (), after) ∧ Updated store index data after) := by
  rcases Nat.lt_or_ge store.maxData data.length with big | fits
  · exact .inl ⟨big, update_tooBig big⟩
  · exact .inr ⟨fits, wf.update_ok occupied fits⟩

/-- A call keeps the store well-formed and changes no size. -/
theorem WellFormed.step {call : SlotsCall B} (wf : store.WellFormed)
    (stepped : call.Step store after) :
    after.WellFormed ∧ after.header.capacity = store.header.capacity ∧
      after.header.slotSize = store.header.slotSize := by
  obtain ⟨allowed, rfl⟩ := stepped
  cases call with
  | insert data =>
    simp only [SlotsCall.apply]
    obtain ⟨_, same⟩ | ⟨_, _, same⟩ | ⟨_, _, index, after, same, inserted⟩ := wf.insert_cases data
    · rw [same]
      exact ⟨wf, rfl, rfl⟩
    · rw [same]
      exact ⟨wf, rfl, rfl⟩
    · rw [same]
      exact ⟨inserted.wellFormed, inserted.capacity, inserted.slotSize⟩
  | update index data =>
    simp only [SlotsCall.apply]
    obtain ⟨_, same⟩ | ⟨_, after, same, updated⟩ := wf.update_cases allowed data
    · rw [same]
      exact ⟨wf, rfl, rfl⟩
    · rw [same]
      exact ⟨updated.wellFormed, by rw [updated.header], by rw [updated.header]⟩
  | remove index =>
    have removed := wf.remove_ok allowed
    exact ⟨removed.wellFormed, removed.capacity, removed.slotSize⟩

/-- A well-formed store of `capacity` slots that lie one behind the other, each for at
most `dataSize` cells. -/
structure Sized (capacity dataSize : Nat) (store : Slots B) : Prop where
  wellFormed : store.WellFormed
  capacity : store.header.capacity = capacity
  slotSize : store.header.slotSize = slotMetadataSize + dataSize

theorem new_sized (memory : Nat → Slot B) (capacity : Nat) {dataSize : Nat}
    (small : slotMetadataSize + dataSize < usizeModulus) :
    Sized capacity dataSize (new memory capacity dataSize) where
  wellFormed := new_wellFormed memory capacity dataSize
  capacity := by rw [new_header]; rfl
  slotSize := by rw [new_header]; exact stride_add small

variable {capacity dataSize : Nat}

theorem Sized.maxData (sized : Sized capacity dataSize store) : store.maxData = dataSize :=
  stride_sub sized.slotSize

theorem Inserted.sized {index : Nat} {data : List B} (inserted : Inserted store index data after)
    (sized : Sized capacity dataSize store) : Sized capacity dataSize after where
  wellFormed := inserted.wellFormed
  capacity := inserted.capacity.trans sized.capacity
  slotSize := inserted.slotSize.trans sized.slotSize

theorem Updated.sized {index : Nat} {data : List B} (updated : Updated store index data after)
    (sized : Sized capacity dataSize store) : Sized capacity dataSize after where
  wellFormed := updated.wellFormed
  capacity := by rw [updated.header, sized.capacity]
  slotSize := by rw [updated.header, sized.slotSize]

theorem Removed.sized {index : Nat} (removed : Removed store index after)
    (sized : Sized capacity dataSize store) : Sized capacity dataSize after where
  wellFormed := removed.wellFormed
  capacity := removed.capacity.trans sized.capacity
  slotSize := removed.slotSize.trans sized.slotSize

theorem Sized.insert_cases (sized : Sized capacity dataSize store) (data : List B) :
    (capacity ≤ store.header.count ∧
      store.insert data = (.error (.tableFull store.header.count capacity), store)) ∨
    (store.header.count < capacity ∧ dataSize < data.length ∧
      store.insert data = (.error (.recordSizeTooBig data.length dataSize), store)) ∨
    (store.header.count < capacity ∧ data.length ≤ dataSize ∧ ∃ index after,
      store.insert data = (.ok index, after) ∧ Inserted store index data after) := by
  simpa only [sized.capacity, sized.maxData] using sized.wellFormed.insert_cases data

theorem Sized.update_cases (sized : Sized capacity dataSize store) {index : Nat}
    (occupied : store.Occupied index) (data : List B) :
    (dataSize < data.length ∧
      store.update index data = (.error (.recordSizeTooBig data.length dataSize), store)) ∨
    (data.length ≤ dataSize ∧ ∃ after,
      store.update index data = (.ok (), after) ∧ Updated store index data after) := by
  simpa only [sized.maxData] using sized.wellFormed.update_cases occupied data

theorem step_sized {call : SlotsCall B} (sized : Sized capacity dataSize store)
    (stepped : call.Step store after) : Sized capacity dataSize after := by
  obtain ⟨wellFormed, same, stride⟩ := sized.wellFormed.step stepped
  exact ⟨wellFormed, same.trans sized.capacity, stride.trans sized.slotSize⟩

theorem run_sized {calls : List (SlotsCall B)} (sized : Sized capacity dataSize store)
    (run : Run SlotsCall.Step store calls after) : Sized capacity dataSize after :=
  run.invariant step_sized sized

theorem Sized.tableFull_iff (sized : Sized capacity dataSize store) (data : List B) :
    (∃ current limit, (store.insert data).1 = .error (.tableFull current limit)) ↔
      ∀ i < capacity, store.Occupied i := by
  have full_iff := sized.wellFormed.full_iff
  rw [sized.capacity] at full_iff
  rw [← full_iff]
  obtain ⟨full, same⟩ | ⟨room, _, same⟩ | ⟨room, _, _, _, same, _⟩ := sized.insert_cases data
  · simp [same, full]
  · simpa [same] using room
  · simpa [same] using room

/-- Inserting a list of data one after the other. -/
def insertAll (store : Slots B) : List (List B) → List (Except InMemoryTableError Nat)
  | [] => []
  | data :: rest => (store.insert data).1 :: insertAll (store.insert data).2 rest

theorem Sized.insertAll_isOk (sized : Sized capacity dataSize store) {fitting : List (List B)}
    (fits : ∀ data ∈ fitting, data.length ≤ dataSize) :
    (store.insertAll fitting).map Except.isOk =
      List.replicate (min fitting.length (capacity - store.header.count)) true ++
        List.replicate (fitting.length - (capacity - store.header.count)) false := by
  induction fitting generalizing store with
  | nil => simp [insertAll]
  | cons data rest ih =>
    have restFits : ∀ data ∈ rest, data.length ≤ dataSize :=
      fun other member => fits other (List.mem_cons_of_mem _ member)
    obtain ⟨full, same⟩ | ⟨_, big, _⟩ | ⟨room, _, index, after, same, inserted⟩ :=
      sized.insert_cases data
    · have rest := ih sized restFits
      have none : capacity - store.header.count = 0 := by omega
      simp only [none, Nat.min_zero, List.replicate_zero, List.nil_append, Nat.sub_zero] at rest ⊢
      simp only [insertAll, same, List.map_cons, rest, List.length_cons, List.replicate_succ]
      rfl
    · have := fits data List.mem_cons_self
      omega
    · have rest := ih (inserted.sized sized) restFits
      obtain ⟨left, remaining⟩ : ∃ left, capacity - store.header.count = left + 1 :=
        ⟨capacity - store.header.count - 1, by omega⟩
      have after : capacity - after.header.count = left := by
        have := inserted.count
        omega
      rw [after] at rest
      simp only [insertAll, same, List.map_cons, rest, List.length_cons, remaining,
        Nat.add_min_add_right, List.replicate_succ, List.cons_append, Nat.add_sub_add_right]
      rfl

/-- Where the sizes do not wrap around, the counter, the free list and the sizes are
exact in every reachable store; an insertion takes a free slot, leaves all others alone,
fails with `tableFull` exactly on a full store, and as many fitting insertions succeed
as the counter says there are free slots. -/
theorem reachable_exact (memory : Nat → Slot B) (capacity dataSize : Nat)
    (fits : SizeFits 0 capacity dataSize) (calls : List (SlotsCall B))
    (run : Run SlotsCall.Step (new memory capacity dataSize) calls store) :
    store.count = store.occupiedSlots.length ∧
    (∃ free, store.FreeList free ∧ free.length = capacity - store.count) ∧
    store.header.capacity = capacity ∧
    (∀ i, store.Occupied i → (store.slot i).size ≤ dataSize) ∧
    (∀ data result after, store.insert data = (result, after) →
      (∀ index, result = .ok index → store.Free index) ∧
      ∀ j, result ≠ .ok j → after.slot j = store.slot j) ∧
    (∀ data, (∃ current limit, (store.insert data).1 = .error (.tableFull current limit)) ↔
      ∀ i < capacity, store.Occupied i) ∧
    (∀ fitting : List (List B), (∀ data ∈ fitting, data.length ≤ dataSize) →
      (store.insertAll fitting).map Except.isOk =
        List.replicate (min fitting.length (capacity - store.count)) true ++
          List.replicate (fitting.length - (capacity - store.count)) false) := by
  have sized := run_sized (new_sized memory capacity fits.stride) run
  refine ⟨sized.wellFormed.count_eq, ?_, sized.capacity, ?_, ?_, sized.tableFull_iff,
    fun fitting fits => sized.insertAll_isOk fits⟩
  · obtain ⟨free, list, total⟩ := sized.wellFormed.threaded
    refine ⟨free, list, ?_⟩
    rw [sized.capacity] at total
    simp only [count]
    omega
  · intro i occupied
    rw [← sized.maxData]
    exact sized.wellFormed.fits i occupied
  · intro data result after insertion
    obtain ⟨_, same⟩ | ⟨_, _, same⟩ | ⟨_, _, index, _, same, inserted⟩ := sized.insert_cases data
    · cases same.symm.trans insertion
      simp
    · cases same.symm.trans insertion
      simp
    · cases same.symm.trans insertion
      refine ⟨?_, fun j different => inserted.others j ?_⟩
      · rintro i ⟨⟩
        exact inserted.wasFree
      · rintro rfl
        exact different rfl

/-- Two slots: one insertion, then its removal. -/
def sampleRun : List (SlotsCall Nat) := [.insert [7], .remove 0]

def sampleStore : Slots Nat :=
  (((new (fun _ => ⟨.free, 0, []⟩) 2 1).insert [7]).2).remove 0

theorem reachable_exact_sample :
    sampleStore.count = sampleStore.occupiedSlots.length ∧
    (∃ free, sampleStore.FreeList free ∧ free.length = 2 - sampleStore.count) := by
  have run : Run SlotsCall.Step (new (fun _ => ⟨.free, 0, []⟩) 2 1) sampleRun sampleStore :=
    .next ⟨trivial, rfl⟩ (.next ⟨by decide, rfl⟩ (.refl _))
  have exact := reachable_exact _ 2 1 ⟨by decide, by decide⟩ sampleRun run
  exact ⟨exact.1, exact.2.1⟩

end Slots
end InMemoryTable
