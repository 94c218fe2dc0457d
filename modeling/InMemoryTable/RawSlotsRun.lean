import InMemoryTable.RawSlots

/-! The calls on raw bytes do to the store that the bytes show what the calls on
a store of slots do; every sequence of calls follows from that, through however
many handles it goes. -/
namespace InMemoryTable
open ByteMemory Transition

namespace RawSlots
variable {layout : HeaderLayout} {self : RawSlots} {memory before after : ByteMemory}
  {dataSize index value : Nat} {data : List UInt8}

/-! ### One call -/

/-- The bytes from the header to the last slot. -/
abbrev RegionFrame (self : RawSlots) (dataSize capacity : Nat) (before after : ByteMemory) : Prop :=
  Frame self.basePtr (Slots.slotOffset self.basePtr dataSize capacity) before after

theorem HeaderFrame.region {capacity : Nat} (changed : HeaderFrame self before after) :
    RegionFrame self dataSize capacity before after :=
  changed.mono (Nat.le_refl _) (header_le_slotOffset ..)

theorem SlotFrame.region {capacity : Nat} (changed : SlotFrame self dataSize index before after)
    (inside : index < capacity) : RegionFrame self dataSize capacity before after := by
  refine changed.mono ?_ ?_
  · exact (Nat.le_add_right ..).trans (header_le_slotOffset ..)
  · rw [← slotOffset_succ]
    exact slotOffset_le inside

/-- The two fields that an insertion and a removal change. -/
theorem view_counted {firstFree count : Nat} (next : firstFree < usizeModulus)
    (counted : count < usizeModulus) :
    self.view layout (self.setField layout (self.setField layout memory .firstFree firstFree)
        .count count) dataSize =
      { self.view layout memory dataSize with
        header := { (self.view layout memory dataSize).header with firstFree, count } } := by
  rw [view_of_header (setField_frame.trans setField_frame), headerView_count counted,
    headerView_firstFree next]
  rfl

theorem Spaced.setField {f : HeaderField} (spaced : Spaced layout self memory dataSize)
    (different : HeaderField.slotSize ≠ f) :
    Spaced layout self (self.setField layout memory f value) dataSize :=
  (field_setField_other different).trans spaced

theorem update_eq (spaced : Spaced layout self memory dataSize) (small : dataSize < usizeModulus) :
    Prod.map id (self.view layout · dataSize) (self.update layout memory index data) =
      (self.view layout memory dataSize).update index data := by
  have limit : (self.view layout memory dataSize).maxData = dataSize := spaced.maxData
  simp only [update, Slots.update, spaced.maxData, limit]
  split
  · rfl
  · rename_i fits
    simp only [Prod.map, id, view_setRecordData spaced (Nat.le_of_not_lt fits) small]

theorem insert_eq (spaced : Spaced layout self memory dataSize) (small : dataSize < usizeModulus) :
    Prod.map id (self.view layout · dataSize) (self.insert layout memory data) =
      (self.view layout memory dataSize).insert data := by
  have limit : (self.view layout memory dataSize).maxData = dataSize := spaced.maxData
  have count : (self.view layout memory dataSize).header.count = self.field layout memory .count :=
    rfl
  have capacity : (self.view layout memory dataSize).header.capacity =
      self.field layout memory .capacity := rfl
  have firstFree : (self.view layout memory dataSize).header.firstFree =
      self.field layout memory .firstFree := rfl
  simp only [insert, Slots.insert, spaced.maxData, limit, count, capacity, firstFree]
  split
  · rfl
  rename_i room
  split
  · rfl
  rename_i fits
  have counted : self.field layout memory .count + 1 < usizeModulus := by
    have : self.field layout memory .capacity < usizeModulus := field_lt
    omega
  simp only [Prod.map, id, field_setField_other, ne_eq, reduceCtorEq, not_false_eq_true,
    view_setRecordData ((spaced.setField _).setField _) (Nat.le_of_not_lt fits) small,
    view_counted size_lt counted, spaced.getRecordMetadata_eq]
  rfl

/-- Both stores to the metadata of a slot. -/
theorem setMetadata_frame {state : SlotState} :
    SlotFrame self dataSize index memory
      (SlotMetadata.setSize
        (SlotMetadata.setState memory (Slots.slotOffset self.basePtr dataSize index) state)
        (Slots.slotOffset self.basePtr dataSize index) value) := by
  refine (setState_frame.mono (Nat.le_refl _) ?_).trans
    (setSize_frame.mono (Nat.le_add_right ..) ?_)
  · simp only [Slots.slotMetadataSize]
    omega
  · omega

theorem view_setMetadata {state : SlotState} (small : value < usizeModulus) :
    self.view layout (SlotMetadata.setSize
        (SlotMetadata.setState memory (Slots.slotOffset self.basePtr dataSize index) state)
        (Slots.slotOffset self.basePtr dataSize index) value) dataSize =
      (self.view layout memory dataSize).setMetadata index state value := by
  rw [view_of_slot setMetadata_frame, slotView_setSize small, slotView_setState]
  rfl

theorem Spaced.freed (spaced : Spaced layout self memory dataSize) :
    Spaced layout self
      (SlotMetadata.setState memory (Slots.slotOffset self.basePtr dataSize index) .free)
      dataSize := by
  have changed : SlotFrame self dataSize index memory
      (SlotMetadata.setState memory (Slots.slotOffset self.basePtr dataSize index) .free) := by
    refine setState_frame.mono (Nat.le_refl _) ?_
    simp only [Slots.slotMetadataSize]
    omega
  exact changed.spaced spaced

theorem remove_eq (spaced : Spaced layout self memory dataSize) (small : index < usizeModulus) :
    self.view layout (self.remove layout memory index) dataSize =
      (self.view layout memory dataSize).remove index := by
  have still : ∀ {f : HeaderField}, self.field layout (SlotMetadata.setSize
      (SlotMetadata.setState memory (Slots.slotOffset self.basePtr dataSize index) .free)
      (Slots.slotOffset self.basePtr dataSize index) (self.field layout memory .firstFree)) f =
        self.field layout memory f :=
    field_of_frame setMetadata_frame (header_le_slotOffset ..)
  have counted : wrappingDecrement (self.field layout memory .count) < usizeModulus := by
    have : self.field layout memory .count < usizeModulus := field_lt
    unfold wrappingDecrement
    split <;> omega
  simp only [remove, spaced.getRecordMetadata_eq, spaced.freed.getRecordMetadata_eq,
    field_setField_other, ne_eq, reduceCtorEq, not_false_eq_true, still,
    view_counted small counted, view_setMetadata field_lt]
  rfl

/-- Initializing some of the slots. -/
theorem initialize_eq {capacity : Nat} {link : Nat → Nat} (links : ∀ i, link i < usizeModulus)
    {items : List Nat} (inside : ∀ i ∈ items, i < capacity)
    (spaced : Spaced layout self memory dataSize) :
    self.view layout (items.foldl (fun memory i =>
        SlotMetadata.setSize (SlotMetadata.setState memory
          (self.getRecordMetadata layout memory i) .free)
          (self.getRecordMetadata layout memory i) (link i)) memory) dataSize =
      items.foldl (fun slots i => slots.setMetadata i .free (link i))
        (self.view layout memory dataSize) ∧
    RegionFrame self dataSize capacity memory (items.foldl (fun memory i =>
        SlotMetadata.setSize (SlotMetadata.setState memory
          (self.getRecordMetadata layout memory i) .free)
          (self.getRecordMetadata layout memory i) (link i)) memory) := by
  induction items generalizing memory with
  | nil => exact ⟨rfl, Frame.refl _ _ _⟩
  | cons i rest ih =>
    have changed : SlotFrame self dataSize i memory (SlotMetadata.setSize
        (SlotMetadata.setState memory (Slots.slotOffset self.basePtr dataSize i) .free)
        (Slots.slotOffset self.basePtr dataSize i) (link i)) := setMetadata_frame
    obtain ⟨same, frame⟩ := ih (fun j member => inside j (List.mem_cons_of_mem _ member))
      (changed.spaced spaced)
    simp only [List.foldl_cons, spaced.getRecordMetadata_eq]
    refine ⟨?_, (changed.region (inside i List.mem_cons_self)).trans frame⟩
    rw [same, view_setMetadata (links i)]

theorem initializeFreeList_eq (spaced : Spaced layout self memory dataSize) :
    self.view layout (self.initializeFreeList layout memory) dataSize =
      (self.view layout memory dataSize).initializeFreeList ∧
    RegionFrame self dataSize (self.field layout memory .capacity) memory
      (self.initializeFreeList layout memory) := by
  have bound : self.field layout memory .capacity < usizeModulus := field_lt
  have links : ∀ i, (if i + 1 < self.field layout memory .capacity then i + 1
      else self.field layout memory .capacity) < usizeModulus := by
    intro i
    split <;> omega
  exact initialize_eq links (fun i member => List.mem_range.mp member) spaced

/-- What `Slots::new` leaves behind. -/
structure Made (layout : HeaderLayout) (basePtr capacity dataSize : Nat) (memory : ByteMemory)
    (slots : RawSlots) (after : ByteMemory) : Prop where
  handle : slots = ⟨basePtr⟩
  view : slots.view layout after dataSize =
    Slots.new (slots.view layout memory dataSize).slot capacity dataSize
  frame : RegionFrame slots dataSize capacity memory after

theorem writeHeader_frame {header : SlotsHeader} :
    HeaderFrame self memory (self.writeHeader layout memory header) :=
  setField_frame.trans (setField_frame.trans (setField_frame.trans setField_frame))

theorem new_ok {basePtr capacity : Nat} {slots : RawSlots}
    (created : new layout memory basePtr capacity dataSize = (.ok slots, after)) :
    slots = ⟨basePtr⟩ ∧ after = slots.initializeFreeList layout
      (slots.writeHeader layout memory
        (.new capacity (wrappingAdd Slots.slotMetadataSize dataSize))) := by
  unfold new at created
  split at created
  · simp at created
  · obtain ⟨made, same⟩ := Prod.mk.inj created
    obtain rfl := Except.ok.inj made
    exact ⟨rfl, same.symm⟩

theorem new_made {basePtr capacity : Nat} {slots : RawSlots} (counted : capacity < usizeModulus)
    (small : Slots.slotMetadataSize + dataSize < usizeModulus)
    (created : new layout memory basePtr capacity dataSize = (.ok slots, after)) :
    Made layout basePtr capacity dataSize memory slots after := by
  obtain ⟨handle, made⟩ := new_ok created
  rw [Slots.stride_add small] at made
  have zero : 0 < usizeModulus := Nat.two_pow_pos 64
  have header : slots.headerView layout
      (slots.writeHeader layout memory (.new capacity (Slots.slotMetadataSize + dataSize))) =
        .new capacity (Slots.slotMetadataSize + dataSize) :=
    headerView_writeHeader counted zero small zero
  have frame : HeaderFrame slots memory (slots.writeHeader layout memory
    (.new capacity (Slots.slotMetadataSize + dataSize))) := writeHeader_frame
  have shown : slots.view layout (slots.writeHeader layout memory
      (.new capacity (Slots.slotMetadataSize + dataSize))) dataSize = _ := view_of_header frame
  have spaced : Spaced layout slots (slots.writeHeader layout memory
    (.new capacity (Slots.slotMetadataSize + dataSize))) dataSize := by
    have written := congrArg SlotsHeader.slotSize header
    exact written
  have total : slots.field layout (slots.writeHeader layout memory
    (.new capacity (Slots.slotMetadataSize + dataSize))) .capacity = capacity := by
    have written := congrArg SlotsHeader.capacity header
    exact written
  obtain ⟨initialized, region⟩ := initializeFreeList_eq spaced
  refine ⟨handle, ?_, ?_⟩
  · rw [made, initialized, shown, header, Slots.new, Slots.stride_add small]
  · rw [total] at region
    rw [made]
    exact frame.region.trans region

/-- A new store uses none of its slots. -/
theorem Made.unused {basePtr capacity : Nat} {slots : RawSlots}
    (made : Made layout basePtr capacity dataSize memory slots after) (i : Nat) :
    ¬ (slots.view layout after dataSize).Occupied i := by
  rw [made.view]
  rintro ⟨bound, used⟩
  simp only [Slots.new_header, SlotsHeader.new] at bound
  rw [Slots.new_slot _ _ _ _ bound] at used
  contradiction

theorem get_eq (spaced : Spaced layout self memory dataSize)
    (fits : ((self.view layout memory dataSize).slot index).state = .occupied →
      ((self.view layout memory dataSize).slot index).size ≤ dataSize) :
    self.get layout memory index = (self.view layout memory dataSize).get index := by
  simp only [get, Slots.get, spaced.getRecordMetadata_eq]
  split
  · rename_i free
    exact (if_pos free).symm
  · rename_i used
    have occupied : ((self.view layout memory dataSize).slot index).state = .occupied := by
      cases state : ((self.view layout memory dataSize).slot index).state with
      | free => exact absurd state used
      | occupied => rfl
    exact ((if_neg used).trans (take_read (fits occupied))).symm

/-- A write of the header, then one of a slot; capacity and slot size stay. -/
structure Touches (layout : HeaderLayout) (slots : RawSlots) (dataSize index : Nat)
    (before after : ByteMemory) : Prop where
  changed : ∃ between, HeaderFrame slots before between ∧
    SlotFrame slots dataSize index between after
  capacity : slots.field layout after .capacity = slots.field layout before .capacity
  slotSize : slots.field layout after .slotSize = slots.field layout before .slotSize

theorem Touches.region {capacity : Nat} (touched : Touches layout self dataSize index before after)
    (inside : index < capacity) : RegionFrame self dataSize capacity before after := by
  obtain ⟨between, header, slot⟩ := touched.changed
  exact header.region.trans (slot.region inside)

theorem Touches.others {j address : Nat}
    (touched : Touches layout self dataSize index before after) (different : j ≠ index)
    (starts : Slots.slotOffset self.basePtr dataSize j ≤ address)
    (ends : address <
      Slots.slotOffset self.basePtr dataSize j + (Slots.slotMetadataSize + dataSize)) :
    after address = before address := by
  obtain ⟨between, header, slot⟩ := touched.changed
  have apart := slots_apart self.basePtr dataSize different
  have behind := header_le_slotOffset self.basePtr dataSize j
  exact (slot address (by omega)).trans (header address (.inr (behind.trans starts)))

theorem setRecordData_touches (spaced : Spaced layout self memory dataSize)
    (fits : data.length ≤ dataSize) :
    Touches layout self dataSize index memory (self.setRecordData layout memory index data) where
  changed := ⟨memory, Frame.refl _ _ _, setRecordData_frame spaced fits⟩
  capacity := field_of_frame (setRecordData_frame spaced fits) (header_le_slotOffset ..)
  slotSize := field_of_frame (setRecordData_frame spaced fits) (header_le_slotOffset ..)

theorem Touches.setField {f : HeaderField} (capacity : HeaderField.capacity ≠ f)
    (slotSize : HeaderField.slotSize ≠ f)
    (touched : Touches layout self dataSize index (self.setField layout memory f value) after) :
    Touches layout self dataSize index memory after where
  changed := by
    obtain ⟨between, header, slot⟩ := touched.changed
    exact ⟨between, setField_frame.trans header, slot⟩
  capacity := touched.capacity.trans (field_setField_other capacity)
  slotSize := touched.slotSize.trans (field_setField_other slotSize)

theorem update_ok (spaced : Spaced layout self memory dataSize)
    (updated : self.update layout memory index data = (.ok (), after)) :
    Touches layout self dataSize index memory after := by
  simp only [update, spaced.maxData] at updated
  split at updated
  · simp at updated
  · rename_i fits
    rw [← (Prod.mk.inj updated).2]
    exact setRecordData_touches spaced (Nat.le_of_not_lt fits)

theorem insert_ok (spaced : Spaced layout self memory dataSize)
    (inserted : self.insert layout memory data = (.ok index, after)) :
    Touches layout self dataSize index memory after := by
  simp only [insert, spaced.maxData] at inserted
  split at inserted
  · simp at inserted
  split at inserted
  · simp at inserted
  rename_i fits
  obtain ⟨first, second⟩ := Prod.mk.inj inserted
  have first := Except.ok.inj first
  rw [first] at second
  rw [← second]
  refine .setField ?_ ?_ (.setField ?_ ?_
    (setRecordData_touches ((spaced.setField ?_).setField ?_) (Nat.le_of_not_lt fits))) <;> simp

theorem update_error {e : InMemoryTableError}
    (failed : self.update layout memory index data = (.error e, after)) : after = memory := by
  simp only [update] at failed
  split at failed
  · exact (Prod.mk.inj failed).2.symm
  · simp at failed

theorem insert_error {e : InMemoryTableError}
    (failed : self.insert layout memory data = (.error e, after)) : after = memory := by
  simp only [insert] at failed
  split at failed
  · exact (Prod.mk.inj failed).2.symm
  split at failed
  · exact (Prod.mk.inj failed).2.symm
  · simp at failed

theorem remove_frame {capacity : Nat} (spaced : Spaced layout self memory dataSize)
    (inside : index < capacity) :
    RegionFrame self dataSize capacity memory (self.remove layout memory index) := by
  simp only [remove, spaced.getRecordMetadata_eq, spaced.freed.getRecordMetadata_eq]
  have header : ∀ m count, HeaderFrame self m
      (self.setField layout (self.setField layout m .firstFree index) .count count) :=
    fun _ _ => setField_frame.trans setField_frame
  exact (setMetadata_frame.region inside).trans (header _ _).region

end RawSlots

/-! ### Every sequence of calls -/

/-- The bytes of one store and the handles made for it. -/
structure RawStore where
  memory : ByteMemory
  handles : List RawSlots

/-- A call on the store at one base, with what it returned. -/
inductive RawEvent where
  | new
  | openExisting
  | insert (data : List UInt8) (result : Except InMemoryTableError Nat)
  | update (index : Nat) (data : List UInt8) (result : Except InMemoryTableError Unit)
  | remove (index : Nat)

/-- The bytes that a call wrote to a slot. -/
def RawEvent.written (i : Nat) : RawEvent → Option (List UInt8)
  | .insert data (.ok index) => if index = i then some data else none
  | .update index data (.ok ()) => if index = i then some data else none
  | _ => none

/-- The bytes last written to a slot. -/
def lastWritten (i : Nat) (trace : List RawEvent) : Option (List UInt8) :=
  (trace.filterMap (RawEvent.written i)).getLast?

section Run
variable (layout : HeaderLayout) (basePtr capacity dataSize : Nat)

/-- One call; updates and removals are issued for slots in use only. -/
inductive RawStep : RawStore → RawEvent → RawStore → Prop where
  | new {store slots after} :
      RawSlots.new layout store.memory basePtr capacity dataSize = (.ok slots, after) →
      RawStep store .new ⟨after, slots :: store.handles⟩
  | openExisting {store slots} : RawSlots.openExisting basePtr = .ok slots →
      RawStep store .openExisting ⟨store.memory, slots :: store.handles⟩
  | insert {store slots data result after} : slots ∈ store.handles →
      slots.insert layout store.memory data = (result, after) →
      RawStep store (.insert data result) ⟨after, store.handles⟩
  | update {store slots index data result after} : slots ∈ store.handles →
      index < capacity → slots.isOccupied layout store.memory index = true →
      slots.update layout store.memory index data = (result, after) →
      RawStep store (.update index data result) ⟨after, store.handles⟩
  | remove {store slots index} : slots ∈ store.handles →
      index < capacity → slots.isOccupied layout store.memory index = true →
      RawStep store (.remove index) ⟨slots.remove layout store.memory index, store.handles⟩

/-- The store of slots that the bytes at the base show. -/
abbrev RawStore.shown (store : RawStore) : Slots UInt8 :=
  RawSlots.view layout ⟨basePtr⟩ store.memory dataSize

/-- The handles are for the base, and the bytes there show a well-formed store. -/
structure RawStore.Intact (store : RawStore) : Prop where
  handles : ∀ slots ∈ store.handles, slots = ⟨basePtr⟩
  spaced : RawSlots.Spaced layout ⟨basePtr⟩ store.memory dataSize
  sized : Slots.Sized capacity dataSize (store.shown layout basePtr dataSize)

/-- What a call does, seen from the slots. -/
structure RawStore.Moved (before : RawStore) (event : RawEvent) (after : RawStore) : Prop where
  intact : after.Intact layout basePtr capacity dataSize
  frame : RawSlots.RegionFrame ⟨basePtr⟩ dataSize capacity before.memory after.memory
  stored : ∀ i data, event.written i = some data →
    (after.shown layout basePtr dataSize).get i = data ∧
      RawSlots.Touches layout ⟨basePtr⟩ dataSize i before.memory after.memory
  kept : ∀ i, event.written i = none → (after.shown layout basePtr dataSize).Occupied i →
    (before.shown layout basePtr dataSize).Occupied i ∧
      (after.shown layout basePtr dataSize).get i = (before.shown layout basePtr dataSize).get i

variable {layout basePtr capacity dataSize} {before after : RawStore} {event : RawEvent}
  {slots : RawSlots} {memory : ByteMemory} {index : Nat} {data : List UInt8}

namespace RawStore

/-- A call that leaves the bytes as they are. -/
theorem Intact.quiet (intact : before.Intact layout basePtr capacity dataSize)
    (silent : ∀ i, event.written i = none) {handles : List RawSlots}
    (known : ∀ slots ∈ handles, slots = ⟨basePtr⟩) :
    Moved layout basePtr capacity dataSize before event ⟨before.memory, handles⟩ where
  intact := ⟨known, intact.spaced, intact.sized⟩
  frame := Frame.refl _ _ _
  stored i data wrote := by
    rw [silent i] at wrote
    contradiction
  kept i _ occupied := ⟨occupied, rfl⟩

/-- A call that fills one slot. -/
theorem Moved.of_write (wrote : ∀ i, event.written i = if index = i then some data else none)
    (intact : after.Intact layout basePtr capacity dataSize)
    (touched : RawSlots.Touches layout ⟨basePtr⟩ dataSize index before.memory after.memory)
    (inside : index < capacity) (stored : (after.shown layout basePtr dataSize).get index = data)
    (others : ∀ j ≠ index, (after.shown layout basePtr dataSize).slot j =
      (before.shown layout basePtr dataSize).slot j)
    (used : ∀ i ≠ index, (after.shown layout basePtr dataSize).Occupied i →
      (before.shown layout basePtr dataSize).Occupied i) :
    Moved layout basePtr capacity dataSize before event after where
  intact := intact
  frame := touched.region inside
  stored i found written := by
    rw [wrote, Option.ite_none_right_eq_some, Option.some.injEq] at written
    obtain ⟨rfl, rfl⟩ := written
    exact ⟨stored, touched⟩
  kept i silent occupied := by
    have other : i ≠ index := by
      rintro rfl
      simp [wrote] at silent
    exact ⟨used i other occupied, Slots.get_congr (others i other)⟩

theorem Intact.insert (intact : before.Intact layout basePtr capacity dataSize)
    (small : dataSize < usizeModulus) (member : slots ∈ before.handles)
    {result : Except InMemoryTableError Nat}
    (inserted : slots.insert layout before.memory data = (result, memory)) :
    Moved layout basePtr capacity dataSize before (.insert data result)
      ⟨memory, before.handles⟩ := by
  obtain rfl := intact.handles slots member
  cases result with
  | error e =>
    rw [RawSlots.insert_error inserted]
    exact intact.quiet (fun i => rfl) intact.handles
  | ok index =>
    have same : Prod.map id _ (RawSlots.insert layout ⟨basePtr⟩ before.memory data) = _ :=
      RawSlots.insert_eq intact.spaced small
    rw [inserted] at same
    obtain ⟨_, failed⟩ | ⟨_, _, failed⟩ | ⟨_, _, free, store, ok, done⟩ :=
      intact.sized.insert_cases data
    · exact absurd (congrArg Prod.fst (same.trans failed)) (by simp)
    · exact absurd (congrArg Prod.fst (same.trans failed)) (by simp)
    obtain ⟨first, shown⟩ := Prod.mk.inj (same.trans ok)
    obtain rfl := Except.ok.inj first
    have shown : RawSlots.view layout ⟨basePtr⟩ memory dataSize = store := shown
    subst shown
    have touched := RawSlots.insert_ok intact.spaced inserted
    have inside : index < capacity := intact.sized.capacity ▸ done.wasFree.1
    refine .of_write (fun i => rfl)
      ⟨intact.handles, done.slotSize.trans intact.spaced, done.sized intact.sized⟩ touched inside
      done.stored done.others fun i other occupied => ?_
    exact (done.occupied_iff.mp occupied).resolve_right other

theorem Intact.update (intact : before.Intact layout basePtr capacity dataSize)
    (small : dataSize < usizeModulus) (member : slots ∈ before.handles)
    (occupied : (before.shown layout basePtr dataSize).Occupied index)
    {result : Except InMemoryTableError Unit}
    (updated : slots.update layout before.memory index data = (result, memory)) :
    Moved layout basePtr capacity dataSize before (.update index data result)
      ⟨memory, before.handles⟩ := by
  obtain rfl := intact.handles slots member
  cases result with
  | error e =>
    rw [RawSlots.update_error updated]
    exact intact.quiet (fun i => rfl) intact.handles
  | ok done =>
    have same : Prod.map id _ (RawSlots.update layout ⟨basePtr⟩ before.memory index data) = _ :=
      RawSlots.update_eq intact.spaced small
    rw [updated] at same
    obtain ⟨_, failed⟩ | ⟨_, store, ok, done⟩ := intact.sized.update_cases occupied data
    · exact absurd (congrArg Prod.fst (same.trans failed)) (by simp)
    have shown : RawSlots.view layout ⟨basePtr⟩ memory dataSize = store :=
      (Prod.mk.inj (same.trans ok)).2
    subst shown
    have touched := RawSlots.update_ok intact.spaced updated
    have inside : index < capacity := intact.sized.capacity ▸ occupied.1
    have spaced := (congrArg SlotsHeader.slotSize done.header).trans intact.spaced
    refine .of_write (fun i => rfl) ⟨intact.handles, spaced, done.sized intact.sized⟩ touched inside
      done.stored done.others fun i _ used => ?_
    exact (done.occupied_iff occupied).mp used

theorem Intact.remove (intact : before.Intact layout basePtr capacity dataSize)
    (counted : capacity < usizeModulus) (member : slots ∈ before.handles)
    (occupied : (before.shown layout basePtr dataSize).Occupied index) :
    Moved layout basePtr capacity dataSize before (.remove index)
      ⟨slots.remove layout before.memory index, before.handles⟩ := by
  obtain rfl := intact.handles slots member
  have inside : index < capacity := intact.sized.capacity ▸ occupied.1
  have removed := intact.sized.wellFormed.remove_ok occupied
  have shown := RawSlots.remove_eq intact.spaced (inside.trans counted)
  have unused : ∀ i, (RawEvent.remove index).written i = none := fun i => rfl
  rw [← shown] at removed
  refine ⟨⟨intact.handles, removed.slotSize.trans intact.spaced, removed.sized intact.sized⟩,
    RawSlots.remove_frame intact.spaced inside, ?_, ?_⟩
  · intro i data wrote
    rw [unused i] at wrote
    contradiction
  · intro i _ used
    obtain ⟨before, other⟩ := removed.occupied_iff.mp used
    exact ⟨before, Slots.get_congr (removed.others i other)⟩

theorem Moved.of_new {handles : List RawSlots} (counted : capacity < usizeModulus)
    (small : Slots.slotMetadataSize + dataSize < usizeModulus)
    (known : ∀ slots ∈ handles, slots = ⟨basePtr⟩)
    (created : RawSlots.new layout memory basePtr capacity dataSize = (.ok slots, after.memory))
    (added : after.handles = slots :: handles) :
    Moved layout basePtr capacity dataSize ⟨memory, handles⟩ .new after := by
  have made := RawSlots.new_made counted small created
  have unused := made.unused
  obtain ⟨rfl, view, frame⟩ := made
  have shown : after.shown layout basePtr dataSize =
      Slots.new (RawSlots.view layout ⟨basePtr⟩ memory dataSize).slot capacity dataSize := view
  have sized := Slots.new_sized (RawSlots.view layout ⟨basePtr⟩ memory dataSize).slot capacity small
  have header := Slots.new_header (RawSlots.view layout ⟨basePtr⟩ memory dataSize).slot capacity
    dataSize
  rw [← shown] at sized header
  refine ⟨⟨?_, ?_, sized⟩, frame, ?_, ?_⟩
  · intro slots member
    rw [added] at member
    rcases List.mem_cons.mp member with rfl | member
    · rfl
    · exact known slots member
  · have slotSize := congrArg SlotsHeader.slotSize header
    exact slotSize.trans (Slots.stride_add small)
  · exact fun i data wrote => absurd wrote (by simp [RawEvent.written])
  · exact fun i _ occupied => absurd occupied (unused i)

theorem Intact.occupied_iff {store : RawStore}
    (intact : store.Intact layout basePtr capacity dataSize) (inside : index < capacity) :
    RawSlots.isOccupied layout ⟨basePtr⟩ store.memory index = true ↔
      (store.shown layout basePtr dataSize).Occupied index := by
  rw [RawSlots.isOccupied, intact.spaced.getRecordMetadata_eq, beq_iff_eq, Slots.Occupied,
    intact.sized.capacity]
  exact (and_iff_right inside).symm

theorem Intact.step (intact : before.Intact layout basePtr capacity dataSize)
    (counted : capacity < usizeModulus) (small : Slots.slotMetadataSize + dataSize < usizeModulus)
    (stepped : RawStep layout basePtr capacity dataSize before event after) :
    Moved layout basePtr capacity dataSize before event after := by
  have fits : dataSize < usizeModulus := (Nat.le_add_left ..).trans_lt small
  cases stepped with
  | new created => exact .of_new counted small intact.handles created rfl
  | openExisting opened =>
    refine intact.quiet (fun i => rfl) fun slots member => ?_
    rcases List.mem_cons.mp member with rfl | member
    · unfold RawSlots.openExisting at opened
      split at opened
      · contradiction
      · exact (Except.ok.inj opened).symm
    · exact intact.handles slots member
  | insert member inserted => exact intact.insert fits member inserted
  | update member inside used updated =>
    rw [intact.handles _ member, intact.occupied_iff inside] at used
    exact intact.update fits member used updated
  | remove member inside used =>
    rw [intact.handles _ member, intact.occupied_iff inside] at used
    exact intact.remove counted member used

end RawStore

theorem lastWritten_append (i : Nat) (past : List RawEvent) (event : RawEvent) :
    lastWritten i (past ++ [event]) = (event.written i).or (lastWritten i past) := by
  cases wrote : event.written i <;> simp [lastWritten, wrote]

/-- What the past has left in the bytes, which `memory` was before. -/
structure RawStore.Recorded (layout : HeaderLayout) (basePtr capacity dataSize : Nat)
    (memory : ByteMemory) (past : List RawEvent) (store : RawStore) : Prop where
  intact : store.Intact layout basePtr capacity dataSize
  frame : RawSlots.RegionFrame ⟨basePtr⟩ dataSize capacity memory store.memory
  last : ∀ i, (store.shown layout basePtr dataSize).Occupied i →
    lastWritten i past = some ((store.shown layout basePtr dataSize).get i)

theorem RawStore.Recorded.step {past : List RawEvent}
    (recorded : before.Recorded layout basePtr capacity dataSize memory past)
    (moved : before.Moved layout basePtr capacity dataSize event after) :
    after.Recorded layout basePtr capacity dataSize memory (past ++ [event]) where
  intact := moved.intact
  frame := recorded.frame.trans moved.frame
  last i occupied := by
    rw [lastWritten_append]
    cases wrote : event.written i with
    | some data => exact congrArg some (moved.stored i data wrote).1.symm
    | none =>
      obtain ⟨used, same⟩ := moved.kept i wrote occupied
      exact (recorded.last i used).trans (congrArg some same.symm)

theorem RawStore.Recorded.run {start last : RawStore} {trace : List RawEvent}
    (recorded : start.Recorded layout basePtr capacity dataSize memory [])
    (counted : capacity < usizeModulus) (small : Slots.slotMetadataSize + dataSize < usizeModulus)
    (run : Run (RawStep layout basePtr capacity dataSize) start trace last) :
    last.Recorded layout basePtr capacity dataSize memory trace :=
  run.history (fun recorded stepped =>
    recorded.step (recorded.intact.step counted small stepped)) [] recorded

end Run

/-- The slots on raw bytes keep what was last written to them; a write stays
within the header and its slot, and no call leaves the bytes of the store. -/
theorem raw_slots_exact (layout : HeaderLayout) (basePtr capacity dataSize : Nat)
    (counted : capacity < usizeModulus) (small : Slots.slotMetadataSize + dataSize < usizeModulus)
    (memory : ByteMemory) {slots : RawSlots} {start : ByteMemory}
    (created : RawSlots.new layout memory basePtr capacity dataSize = (.ok slots, start))
    {trace : List RawEvent} {last : RawStore}
    (run : Run (RawStep layout basePtr capacity dataSize) ⟨start, [slots]⟩ trace last) :
    (∀ handle ∈ last.handles, ∀ i < capacity,
      (handle.isOccupied layout last.memory i = true →
        lastWritten i trace = some (handle.get layout last.memory i)) ∧
      (handle.isFree layout last.memory i = true → handle.get layout last.memory i = [])) ∧
    (∀ event next, RawStep layout basePtr capacity dataSize last event next →
      ∀ i data, event.written i = some data →
        (∀ j < capacity, j ≠ i → ∀ address, Slots.slotOffset basePtr dataSize j ≤ address →
          address < Slots.slotOffset basePtr dataSize j + (Slots.slotMetadataSize + dataSize) →
          next.memory address = last.memory address) ∧
        ∀ handle ∈ last.handles,
          handle.field layout next.memory .capacity = handle.field layout last.memory .capacity ∧
          handle.field layout next.memory .slotSize = handle.field layout last.memory .slotSize) ∧
    (∀ address, address < basePtr ∨ basePtr + slotsHeaderSize +
        capacity * (Slots.slotMetadataSize + dataSize) ≤ address →
      last.memory address = memory address) := by
  have made : RawStore.Moved layout basePtr capacity dataSize ⟨memory, []⟩ .new ⟨start, [slots]⟩ :=
    .of_new counted small (by simp) created rfl
  have begun : RawStore.Recorded layout basePtr capacity dataSize memory [] ⟨start, [slots]⟩ := by
    have fresh := RawSlots.new_made counted small created
    obtain rfl := fresh.handle
    exact ⟨made.intact, made.frame, fun i occupied => absurd occupied (fresh.unused i)⟩
  have recorded := begun.run counted small run
  have intact := recorded.intact
  refine ⟨?_, ?_, recorded.frame⟩
  · intro handle member i inside
    obtain rfl := intact.handles handle member
    constructor
    · intro used
      have occupied := (intact.occupied_iff inside).mp used
      have fits := (intact.sized.wellFormed.fits i occupied).trans_eq intact.sized.maxData
      rw [RawSlots.get_eq intact.spaced fun _ => fits]
      exact recorded.last i occupied
    · intro unused
      exact if_pos (beq_iff_eq.mp unused)
  · intro event next stepped i data wrote
    have touched := ((intact.step counted small stepped).stored i data wrote).2
    refine ⟨fun j _ other address starts ends => touched.others other starts ends, ?_⟩
    intro handle member
    obtain rfl := intact.handles handle member
    exact ⟨touched.capacity, touched.slotSize⟩

/-! Two slots for two bytes each, used through two handles. -/

def sampleNew : ByteMemory := (RawSlots.new .declared (fun _ => 255) 8 2 2).2

def sampleInserted : Except InMemoryTableError Nat × ByteMemory :=
  RawSlots.insert .declared ⟨8⟩ sampleNew [7]

def sampleUpdated : Except InMemoryTableError Unit × ByteMemory :=
  RawSlots.update .declared ⟨8⟩ sampleInserted.2 0 [8, 9]

def sampleTrace : List RawEvent :=
  [.openExisting, .insert [7] sampleInserted.1, .update 0 [8, 9] sampleUpdated.1]

theorem raw_slots_exact_sample :
    lastWritten 0 sampleTrace = some [8, 9] ∧
      RawSlots.get .declared ⟨8⟩ sampleUpdated.2 0 = [8, 9] ∧
      ∀ address, address < 8 ∨ 76 ≤ address → sampleUpdated.2 address = 255 := by
  have run : Run (RawStep .declared 8 2 2) ⟨sampleNew, [⟨8⟩]⟩ sampleTrace
      ⟨sampleUpdated.2, [⟨8⟩, ⟨8⟩]⟩ :=
    .next (.openExisting rfl) (.next (.insert List.mem_cons_self rfl)
      (.next (.update List.mem_cons_self (by decide) (by decide +kernel) rfl) (.refl _)))
  obtain ⟨slots, -, outside⟩ := raw_slots_exact .declared 8 2 2 (by decide) (by decide)
    (fun _ => 255) rfl run
  have written : lastWritten 0 sampleTrace = some [8, 9] := by decide +kernel
  have used := (slots ⟨8⟩ List.mem_cons_self 0 (by decide)).1 (by decide +kernel)
  exact ⟨written, Option.some.inj (used.symm.trans written), outside⟩

/-- Slots for 2^64 - 8 bytes are eight bytes apart: the second insertion returns the
index of the live slot and overwrites it. -/
theorem reachable_exact_overlapping :
    let created := RawSlots.new .declared (fun _ => 0) 8 2 (2 ^ 64 - 8)
    let first := RawSlots.insert .declared ⟨8⟩ created.2 [1, 2]
    let second := RawSlots.insert .declared ⟨8⟩ first.2 [3]
    created.1 = .ok ⟨8⟩ ∧ first.1 = .ok 0 ∧ RawSlots.isOccupied .declared ⟨8⟩ first.2 0 = true ∧
      second.1 = .ok 0 ∧ RawSlots.get .declared ⟨8⟩ second.2 0 = [3] := by
  decide +kernel

end InMemoryTable
