import InMemoryTable.Library.Chain
import InMemoryTable.Slots
import Mathlib.Data.List.Range

/-! The free list and the counter of a slot store are exact after every call.
Each operation has one specification; nothing above this file unfolds one. -/
namespace InMemoryTable
namespace Slots
variable {B : Type} {store slots : Slots B} {free : List Nat} {index : Nat} {data : List B}

def Occupied (store : Slots B) (index : Nat) : Prop :=
  index < store.header.capacity ∧ (store.slot index).state = .occupied

def Free (store : Slots B) (index : Nat) : Prop :=
  index < store.header.capacity ∧ (store.slot index).state = .free

instance (store : Slots B) (index : Nat) : Decidable (store.Occupied index) :=
  inferInstanceAs (Decidable (_ ∧ _))

instance (store : Slots B) (index : Nat) : Decidable (store.Free index) :=
  inferInstanceAs (Decidable (_ ∧ _))

/-- The slots in use, in slot order. -/
def occupiedSlots (store : Slots B) : List Nat :=
  (List.range store.header.capacity).filter (fun i => store.Occupied i)

/-- Following `size` from `firstFree` visits `free` and ends at `capacity`;
these are the free slots, each once. -/
structure FreeList (store : Slots B) (free : List Nat) : Prop where
  linked : Chain.Linked id (fun i => (store.slot i).size) store.header.firstFree free
    store.header.capacity
  nodup : free.Nodup
  member : ∀ i, i ∈ free ↔ store.Free i

structure WellFormed (store : Slots B) : Prop where
  threaded : ∃ free, store.FreeList free ∧ store.header.count + free.length = store.header.capacity
  fits : ∀ i, store.Occupied i → (store.slot i).size ≤ store.maxData

theorem free_or_occupied (bound : index < store.header.capacity) :
    store.Free index ∨ store.Occupied index := by
  cases state : (store.slot index).state with
  | free => exact .inl ⟨bound, state⟩
  | occupied => exact .inr ⟨bound, state⟩

theorem Occupied.not_free (occupied : store.Occupied index) : ¬ store.Free index := by
  rintro ⟨_, state⟩
  rw [occupied.2] at state
  contradiction

theorem mem_occupiedSlots : index ∈ store.occupiedSlots ↔ store.Occupied index := by
  simp only [occupiedSlots, List.mem_filter, List.mem_range, decide_eq_true_eq]
  exact ⟨And.right, fun occupied => ⟨occupied.1, occupied⟩⟩

theorem occupiedSlots_nodup (store : Slots B) : store.occupiedSlots.Nodup :=
  List.nodup_range.filter _

/-- Two lists of slot numbers that together list every slot once. -/
theorem FreeList.length_add (list : store.FreeList free) :
    store.occupiedSlots.length + free.length = store.header.capacity := by
  have nodup : (store.occupiedSlots ++ free).Nodup := by
    apply List.Nodup.append store.occupiedSlots_nodup list.nodup
    intro i used unused
    exact (mem_occupiedSlots.mp used).not_free ((list.member i).mp unused)
  have perm : (store.occupiedSlots ++ free).Perm (List.range store.header.capacity) := by
    apply (List.perm_ext_iff_of_nodup nodup List.nodup_range).mpr
    intro i
    simp only [List.mem_append, mem_occupiedSlots, list.member, List.mem_range]
    constructor
    · rintro (used | unused)
      · exact used.1
      · exact unused.1
    · intro bound
      exact (free_or_occupied bound).symm
  simpa using perm.length_eq

theorem WellFormed.count_eq (wf : store.WellFormed) :
    store.header.count = store.occupiedSlots.length := by
  obtain ⟨free, list, total⟩ := wf.threaded
  have := list.length_add
  omega

theorem WellFormed.count_le (wf : store.WellFormed) : store.header.count ≤ store.header.capacity := by
  obtain ⟨free, _, total⟩ := wf.threaded
  omega

theorem WellFormed.full_iff (wf : store.WellFormed) :
    store.header.capacity ≤ store.header.count ↔ ∀ i < store.header.capacity, store.Occupied i := by
  obtain ⟨free, list, total⟩ := wf.threaded
  constructor
  · intro full i bound
    have empty : free = [] := List.length_eq_zero_iff.mp (by omega)
    apply (free_or_occupied bound).resolve_left
    intro unused
    have := (list.member i).mpr unused
    simp [empty] at this
  · intro all
    cases free with
    | nil => simp at total; omega
    | cons i rest =>
      have unused := (list.member i).mp List.mem_cons_self
      exact absurd unused (all i unused.1).not_free

/-- A list of distinct occupied slots that lists all of them has the length of
the counter. -/
theorem WellFormed.count_of_members (wf : store.WellFormed) {live : List Nat} (nodup : live.Nodup)
    (members : ∀ i, i ∈ live ↔ store.Occupied i) : live.length = store.header.count := by
  have perm : live.Perm store.occupiedSlots :=
    (List.perm_ext_iff_of_nodup nodup store.occupiedSlots_nodup).mpr
      (fun i => (members i).trans mem_occupiedSlots.symm)
  rw [wf.count_eq, perm.length_eq]

theorem WellFormed.count_pos (wf : store.WellFormed) (occupied : store.Occupied index) :
    0 < store.header.count := by
  rw [wf.count_eq]
  exact List.length_pos_of_mem (mem_occupiedSlots.mpr occupied)

/-! ### Initialization -/

theorem initialize_fold (store : Slots B) (link : Nat → Nat) (n : Nat) :
    (List.range n).foldl (fun slots i => slots.setMetadata i .free (link i)) store =
      { store with slot := fun i =>
          if i < n then { store.slot i with state := .free, size := link i } else store.slot i } := by
  induction n with
  | zero => simp
  | succ n ih =>
    rw [List.range_succ, List.foldl_append, ih]
    simp only [List.foldl_cons, List.foldl_nil, setMetadata, mk.injEq, true_and]
    funext i
    by_cases last : i = n
    · subst last
      simp
    · rw [Function.update_of_ne last]
      have : i < n + 1 ↔ i < n := by omega
      simp only [this]

theorem new_header (memory : Nat → Slot B) (capacity dataSize : Nat) :
    (new memory capacity dataSize).header =
      .new capacity (wrappingAdd slotMetadataSize dataSize) := by
  simp only [new, initializeFreeList, initialize_fold]

theorem new_slot (memory : Nat → Slot B) (capacity dataSize i : Nat) (bound : i < capacity) :
    (new memory capacity dataSize).slot i = { memory i with state := .free, size := i + 1 } := by
  simp only [new, initializeFreeList, initialize_fold, SlotsHeader.new, bound, if_true,
    Slot.mk.injEq, true_and, and_true]
  grind

theorem linked_range {next : Nat → Nat} (first length : Nat)
    (successor : ∀ i, first ≤ i → i < first + length → next i = i + 1) :
    Chain.Linked id next first (List.range' first length) (first + length) := by
  induction length generalizing first with
  | zero => simp
  | succ length ih =>
    have rest := ih (first + 1) (fun i low high => successor i (by omega) (by omega))
    refine ⟨rfl, ?_⟩
    rw [successor first (by omega) (by omega)]
    simpa only [Nat.add_assoc, Nat.add_comm 1 length] using rest

theorem new_wellFormed (memory : Nat → Slot B) (capacity dataSize : Nat) :
    (new memory capacity dataSize).WellFormed := by
  have header := new_header memory capacity dataSize
  have states : ∀ i < capacity, ((new memory capacity dataSize).slot i).state = .free := by
    intro i bound
    rw [new_slot _ _ _ _ bound]
  constructor
  · refine ⟨List.range capacity, ⟨?_, List.nodup_range, ?_⟩, ?_⟩
    · simp only [header, SlotsHeader.new, List.range_eq_range']
      have links : ∀ i, 0 ≤ i → i < 0 + capacity →
          ((new memory capacity dataSize).slot i).size = i + 1 := by
        intro i _ bound
        rw [new_slot _ _ _ _ (by omega)]
      simpa using linked_range 0 capacity links
    · intro i
      simp only [List.mem_range, Free, header, SlotsHeader.new]
      exact ⟨fun bound => ⟨bound, states i bound⟩, And.left⟩
    · simp [header, SlotsHeader.new]
  · rintro i ⟨bound, occupied⟩
    rw [states i (by simpa [header, SlotsHeader.new] using bound)] at occupied
    contradiction

/-- A stride that does not wrap around leaves the data size behind the metadata. -/
theorem stride_sub {slotSize dataSize : Nat} (stride : slotSize = slotMetadataSize + dataSize) :
    wrappingSub slotSize slotMetadataSize = dataSize := by
  rw [wrappingSub, stride, if_pos (Nat.le_add_right ..)]
  exact Nat.add_sub_cancel_left ..

theorem stride_add {dataSize : Nat} (small : slotMetadataSize + dataSize < usizeModulus) :
    wrappingAdd slotMetadataSize dataSize = slotMetadataSize + dataSize :=
  Nat.mod_eq_of_lt small

/-! ### Writing a slot -/

theorem setRecordData_self : (store.setRecordData index data).slot index =
    { state := .occupied, size := data.length,
      buffer := data ++ (store.slot index).buffer.drop data.length } := by
  simp [setRecordData]

theorem setRecordData_other {j : Nat} (different : j ≠ index) :
    (store.setRecordData index data).slot j = store.slot j :=
  Function.update_of_ne different ..

theorem setRecordData_comm (store : Slots B) {i j : Nat} (different : i ≠ j) (first second : List B) :
    (store.setRecordData i first).setRecordData j second =
      (store.setRecordData j second).setRecordData i first := by
  simp only [setRecordData, Function.update_of_ne different,
    Function.update_of_ne (Ne.symm different), Function.update_comm different]

@[simp] theorem get_setRecordData : (store.setRecordData index data).get index = data := by
  simp [get, setRecordData_self]

theorem get_congr (same : slots.slot index = store.slot index) : slots.get index = store.get index := by
  simp only [get, same]

/-! ### Insertion -/

/-- What a successful `insert` does: it fills one free slot and nothing else. -/
structure Inserted (store : Slots B) (index : Nat) (data : List B) (slots : Slots B) : Prop where
  wasFree : store.Free index
  occupied : slots.Occupied index
  stored : slots.get index = data
  others : ∀ j ≠ index, slots.slot j = store.slot j
  count : slots.header.count = store.header.count + 1
  capacity : slots.header.capacity = store.header.capacity
  slotSize : slots.header.slotSize = store.header.slotSize
  wellFormed : slots.WellFormed

theorem Inserted.occupied_iff (inserted : Inserted store index data slots) {i : Nat} :
    slots.Occupied i ↔ store.Occupied i ∨ i = index := by
  by_cases same : i = index
  · subst same
    exact iff_of_true inserted.occupied (.inr rfl)
  · rw [Occupied, Occupied, inserted.capacity, inserted.others i same]
    simp [same]

theorem insert_full (full : store.header.capacity ≤ store.header.count) :
    store.insert data = (.error (.tableFull store.header.count store.header.capacity), store) := by
  simp only [insert, ge_iff_le, full, if_true]

theorem insert_tooBig (room : store.header.count < store.header.capacity)
    (big : store.maxData < data.length) :
    store.insert data = (.error (.recordSizeTooBig data.length store.maxData), store) := by
  simp only [insert, ge_iff_le, Nat.not_le.mpr room, if_false, gt_iff_lt, big, if_true]

theorem WellFormed.insert_ok (wf : store.WellFormed) (room : store.header.count < store.header.capacity)
    (fits : data.length ≤ store.maxData) :
    ∃ index slots, store.insert data = (.ok index, slots) ∧ Inserted store index data slots := by
  obtain ⟨free, ⟨linked, nodup, member⟩, total⟩ := wf.threaded
  cases free with
  | nil => simp at total; omega
  | cons first rest =>
    obtain ⟨start, linked⟩ := linked
    have start : store.header.firstFree = first := start
    obtain ⟨outside, nodup⟩ := List.nodup_cons.mp nodup
    have wasFree := (member first).mp List.mem_cons_self
    let popped : Slots B := { store with header := { store.header with
      firstFree := (store.slot first).size, count := store.header.count + 1 } }
    have inserted : store.insert data = (.ok first, popped.setRecordData first data) := by
      simp only [insert, ge_iff_le, Nat.not_le.mpr room, if_false, gt_iff_lt,
        Nat.not_lt.mpr fits, start, popped]
    refine ⟨first, _, inserted, wasFree, ⟨wasFree.1, by rw [setRecordData_self]⟩,
      get_setRecordData, fun j different => setRecordData_other different, rfl, rfl, rfl, ?_⟩
    constructor
    · refine ⟨rest, ⟨?_, nodup, ?_⟩, ?_⟩
      · apply linked.congr
        intro i hi
        rw [setRecordData_other (ne_of_mem_of_not_mem hi outside)]
      · intro i
        by_cases same : i = first
        · subst same
          apply iff_of_false outside
          intro unused
          have := unused.2
          rw [setRecordData_self] at this
          contradiction
        · have kept := member i
          simp only [List.mem_cons, same, false_or] at kept
          rw [kept, Free, Free, setRecordData_other same]
          rfl
      · simp only [List.length_cons] at total
        change store.header.count + 1 + rest.length = store.header.capacity
        omega
    · rintro i ⟨bound, occupied⟩
      by_cases same : i = first
      · subst same
        rw [setRecordData_self]
        exact fits
      · rw [setRecordData_other same] at occupied ⊢
        exact wf.fits i ⟨bound, occupied⟩

/-! ### Update and removal -/

structure Updated (store : Slots B) (index : Nat) (data : List B) (slots : Slots B) : Prop where
  occupied : slots.Occupied index
  stored : slots.get index = data
  others : ∀ j ≠ index, slots.slot j = store.slot j
  header : slots.header = store.header
  wellFormed : slots.WellFormed

theorem Updated.occupied_iff (updated : Updated store index data slots)
    (occupied : store.Occupied index) {i : Nat} : slots.Occupied i ↔ store.Occupied i := by
  by_cases same : i = index
  · subst same
    exact iff_of_true updated.occupied occupied
  · rw [Occupied, Occupied, updated.header, updated.others i same]

/-- The free list has the same slots, in the same order: updates leave it alone. -/
structure SameFree (store slots : Slots B) : Prop where
  header : slots.header = store.header
  state : ∀ i, (slots.slot i).state = (store.slot i).state
  link : ∀ i, (store.slot i).state = .free → (slots.slot i).size = (store.slot i).size

theorem SameFree.refl (store : Slots B) : SameFree store store :=
  ⟨rfl, fun _ => rfl, fun _ _ => rfl⟩

theorem Updated.sameFree (updated : Updated store index data slots)
    (occupied : store.Occupied index) : SameFree store slots where
  header := updated.header
  state i := by
    by_cases same : i = index
    · subst same
      rw [updated.occupied.2, occupied.2]
    · rw [updated.others i same]
  link i unused := by
    by_cases same : i = index
    · subst same
      rw [occupied.2] at unused
      contradiction
    · rw [updated.others i same]

theorem update_tooBig (big : store.maxData < data.length) :
    store.update index data = (.error (.recordSizeTooBig data.length store.maxData), store) := by
  simp only [update, gt_iff_lt, big, if_true]

theorem WellFormed.update_ok (wf : store.WellFormed) (occupied : store.Occupied index)
    (fits : data.length ≤ store.maxData) :
    ∃ slots, store.update index data = (.ok (), slots) ∧ Updated store index data slots := by
  refine ⟨store.setRecordData index data,
    by simp only [update, gt_iff_lt, Nat.not_lt.mpr fits, if_false],
    ⟨occupied.1, by rw [setRecordData_self]⟩, get_setRecordData,
    fun j different => setRecordData_other different, rfl, ?_⟩
  obtain ⟨free, ⟨linked, nodup, member⟩, total⟩ := wf.threaded
  have outside : index ∉ free := fun unused => occupied.not_free ((member index).mp unused)
  constructor
  · refine ⟨free, ⟨?_, nodup, ?_⟩, total⟩
    · apply linked.congr
      intro i hi
      rw [setRecordData_other (ne_of_mem_of_not_mem hi outside)]
    · intro i
      by_cases same : i = index
      · subst same
        apply iff_of_false outside
        intro unused
        have := unused.2
        rw [setRecordData_self] at this
        contradiction
      · rw [member i, Free, Free, setRecordData_other same]
        rfl
  · rintro i ⟨bound, used⟩
    by_cases same : i = index
    · subst same
      rw [setRecordData_self]
      exact fits
    · rw [setRecordData_other same] at used ⊢
      exact wf.fits i ⟨bound, used⟩

structure Removed (store : Slots B) (index : Nat) (slots : Slots B) : Prop where
  free : slots.Free index
  others : ∀ j ≠ index, slots.slot j = store.slot j
  count : slots.header.count + 1 = store.header.count
  capacity : slots.header.capacity = store.header.capacity
  slotSize : slots.header.slotSize = store.header.slotSize
  wellFormed : slots.WellFormed

theorem Removed.occupied_iff (removed : Removed store index slots) {i : Nat} :
    slots.Occupied i ↔ store.Occupied i ∧ i ≠ index := by
  by_cases same : i = index
  · subst same
    exact iff_of_false (fun used => used.not_free removed.free) (fun used => used.2 rfl)
  · rw [Occupied, Occupied, removed.capacity, removed.others i same]
    simp [same]

theorem remove_self : (store.remove index).slot index =
    { store.slot index with state := .free, size := store.header.firstFree } := by
  simp [remove, setMetadata]

theorem remove_other {j : Nat} (different : j ≠ index) :
    (store.remove index).slot j = store.slot j :=
  Function.update_of_ne different ..

theorem WellFormed.remove_ok (wf : store.WellFormed) (occupied : store.Occupied index) :
    Removed store index (store.remove index) := by
  have positive := wf.count_pos occupied
  have count : (store.remove index).header.count + 1 = store.header.count := by
    simp only [remove, wrappingDecrement, setMetadata, Nat.pos_iff_ne_zero.mp positive, if_false]
    omega
  refine ⟨⟨occupied.1, by rw [remove_self]⟩, fun j different => remove_other different, count,
    rfl, rfl, ?_⟩
  obtain ⟨free, ⟨linked, nodup, member⟩, total⟩ := wf.threaded
  have outside : index ∉ free := fun unused => occupied.not_free ((member index).mp unused)
  constructor
  · refine ⟨index :: free, ⟨?_, List.nodup_cons.mpr ⟨outside, nodup⟩, ?_⟩, ?_⟩
    · refine linked.push (a := index) ?_ (fun i hi => ?_)
      · rw [remove_self]
      · rw [remove_other (ne_of_mem_of_not_mem hi outside)]
    · intro i
      by_cases same : i = index
      · subst same
        exact iff_of_true List.mem_cons_self ⟨occupied.1, by rw [remove_self]⟩
      · simp only [List.mem_cons, same, false_or]
        rw [member i, Free, Free, remove_other same]
        rfl
    · simp only [List.length_cons]
      change (store.remove index).header.count + (free.length + 1) = store.header.capacity
      omega
  · rintro i ⟨bound, used⟩
    by_cases same : i = index
    · subst same
      rw [remove_self] at used
      contradiction
    · rw [remove_other same] at used ⊢
      exact wf.fits i ⟨bound, used⟩

end Slots
end InMemoryTable
