import InMemoryTable.RawSlotsRun
import InMemoryTable.Resources

/-! The addresses at which slots are referred to. The stride of the slots is the
size of their metadata and the caller's record size, and only the address of the
header is checked. -/
namespace InMemoryTable
open ByteMemory Program Transition

/-- `align_of::<SlotMetadata>()` -/
def slotMetadataAlignment : Nat := 8

def AlignedAt (address : Nat) : Prop := address % slotMetadataAlignment = 0

namespace RawSlots
variable {layout : HeaderLayout} {self slots : RawSlots} {memory after : ByteMemory}
  {basePtr capacity dataSize index record value : Nat} {data : List UInt8} {f : HeaderField}

/-! ### The stride never changes -/

theorem metadata_behind : Header.data self.basePtr slotsHeaderSize ≤
    self.getRecordMetadata layout memory index :=
  Nat.le_add_right ..

theorem field_setState {state : SlotState}
    (behind : Header.data self.basePtr slotsHeaderSize ≤ record) :
    self.field layout (SlotMetadata.setState memory record state) f =
      self.field layout memory f :=
  field_of_frame setState_frame behind

theorem field_setSize (behind : Header.data self.basePtr slotsHeaderSize ≤ record) :
    self.field layout (SlotMetadata.setSize memory record value) f = self.field layout memory f :=
  field_of_frame setSize_frame (behind.trans (Nat.le_add_right ..))

/-- Whatever the stride is, the bytes of a record lie behind the header. -/
theorem field_setRecordData :
    self.field layout (self.setRecordData layout memory index data) f =
      self.field layout memory f := by
  have behind := @metadata_behind layout self memory index
  have written : ∀ m : ByteMemory, Frame
      (self.getRecordMetadata layout memory index + Slots.slotMetadataSize)
      (self.getRecordMetadata layout memory index + Slots.slotMetadataSize + data.length) m
      (m.write (self.getRecordMetadata layout memory index + Slots.slotMetadataSize) data) :=
    fun m => .write (Nat.le_refl _) (Nat.le_refl _)
  rw [setRecordData, field_of_frame (written _) (behind.trans (Nat.le_add_right ..)),
    field_setSize behind, field_setState behind]

theorem field_initialize (link : Nat → Nat) (items : List Nat) (memory : ByteMemory) :
    self.field layout (items.foldl (fun memory i =>
        SlotMetadata.setSize (SlotMetadata.setState memory
          (self.getRecordMetadata layout memory i) .free)
          (self.getRecordMetadata layout memory i) (link i)) memory) f =
      self.field layout memory f := by
  induction items generalizing memory with
  | nil => rfl
  | cons i rest ih =>
    rw [List.foldl_cons, ih, field_setSize metadata_behind, field_setState metadata_behind]

/-- The stride as the header holds it, cut to a word. -/
theorem slotSize_new (created : new layout memory basePtr capacity dataSize = (.ok slots, after)) :
    slots = ⟨basePtr⟩ ∧ slots.field layout after .slotSize =
      wrappingAdd Slots.slotMetadataSize dataSize := by
  obtain ⟨handle, made⟩ := new_ok created
  refine ⟨handle, ?_⟩
  have different : HeaderField.slotSize ≠ HeaderField.firstFree := by decide
  rw [made, initializeFreeList, field_initialize, writeHeader, field_setField_other different]
  exact readWord_writeWord.trans (Nat.mod_mod ..)

theorem slotSize_insert :
    self.field layout (self.insert layout memory data).2 .slotSize =
      self.field layout memory .slotSize := by
  rw [insert]
  split
  · rfl
  split
  · rfl
  · simp only [field_setRecordData, ne_eq, reduceCtorEq, not_false_eq_true, field_setField_other]

theorem slotSize_update :
    self.field layout (self.update layout memory index data).2 .slotSize =
      self.field layout memory .slotSize := by
  rw [update]
  split
  · rfl
  · exact field_setRecordData

theorem slotSize_remove :
    self.field layout (self.remove layout memory index) .slotSize =
      self.field layout memory .slotSize := by
  simp only [remove, field_setSize metadata_behind, field_setState metadata_behind, ne_eq,
    reduceCtorEq, not_false_eq_true, field_setField_other]

end RawSlots

section Run
variable {layout : HeaderLayout} {basePtr capacity dataSize : Nat} {before after : RawStore}
  {event : RawEvent}

/-- All handles are for the base, and the header there holds this stride. -/
structure RawStore.Steady (layout : HeaderLayout) (basePtr slotSize : Nat) (store : RawStore) :
    Prop where
  handles : ∀ slots ∈ store.handles, slots = ⟨basePtr⟩
  slotSize : RawSlots.field layout ⟨basePtr⟩ store.memory .slotSize = slotSize

theorem RawStore.Steady.step
    (steady : before.Steady layout basePtr (wrappingAdd Slots.slotMetadataSize dataSize))
    (stepped : RawStep layout basePtr capacity dataSize before event after) :
    after.Steady layout basePtr (wrappingAdd Slots.slotMetadataSize dataSize) := by
  have added : ∀ slots : RawSlots, slots = ⟨basePtr⟩ →
      ∀ other ∈ slots :: before.handles, other = ⟨basePtr⟩ := by
    intro slots same other member
    rcases List.mem_cons.mp member with rfl | member
    · exact same
    · exact steady.handles other member
  cases stepped with
  | new created =>
    obtain ⟨same, slotSize⟩ := RawSlots.slotSize_new created
    refine ⟨added _ same, ?_⟩
    rw [← same]
    exact slotSize
  | openExisting opened =>
    refine ⟨added _ ?_, steady.slotSize⟩
    unfold RawSlots.openExisting at opened
    split at opened
    · contradiction
    · exact (Except.ok.inj opened).symm
  | insert member inserted =>
    refine ⟨steady.handles, ?_⟩
    obtain rfl := steady.handles _ member
    have kept := (congrArg (RawSlots.field layout ⟨basePtr⟩ · .slotSize)
      (congrArg Prod.snd inserted)).symm
    exact kept.trans (RawSlots.slotSize_insert.trans steady.slotSize)
  | update member inside used updated =>
    refine ⟨steady.handles, ?_⟩
    obtain rfl := steady.handles _ member
    have kept := (congrArg (RawSlots.field layout ⟨basePtr⟩ · .slotSize)
      (congrArg Prod.snd updated)).symm
    exact kept.trans (RawSlots.slotSize_update.trans steady.slotSize)
  | remove member inside used =>
    refine ⟨steady.handles, ?_⟩
    obtain rfl := steady.handles _ member
    exact RawSlots.slotSize_remove.trans steady.slotSize

theorem RawStore.Steady.run {trace : List RawEvent}
    (steady : before.Steady layout basePtr (wrappingAdd Slots.slotMetadataSize dataSize))
    (run : Run (RawStep layout basePtr capacity dataSize) before trace after) :
    after.Steady layout basePtr (wrappingAdd Slots.slotMetadataSize dataSize) := by
  induction run with
  | refl => exact steady
  | next head tail ih => exact ih (steady.step head)

/-- In every state that calls can reach, `Q` holds of the address of each slot's metadata. -/
def EachRecord (layout : HeaderLayout) (basePtr capacity dataSize : Nat) (Q : Nat → Prop) : Prop :=
  ∀ memory slots start, RawSlots.new layout memory basePtr capacity dataSize = (.ok slots, start) →
    ∀ trace last, Run (RawStep layout basePtr capacity dataSize) ⟨start, [slots]⟩ trace last →
      ∀ handle ∈ last.handles, ∀ i < capacity, Q (handle.getRecordMetadata layout last.memory i)

/-- These addresses depend on nothing but the base, the stride and the slot. -/
theorem eachRecord_iff (layout : HeaderLayout) {Q : Nat → Prop}
    (accepted : checkAligned basePtr headerAlignment = .ok ()) :
    EachRecord layout basePtr capacity dataSize Q ↔
      ∀ i < capacity, Q (Header.data basePtr slotsHeaderSize +
        i * wrappingAdd Slots.slotMetadataSize dataSize) := by
  constructor
  · intro each i inside
    let memory : ByteMemory := fun _ => 0
    obtain ⟨start, created⟩ : ∃ start, RawSlots.new layout memory basePtr capacity dataSize =
        (.ok ⟨basePtr⟩, start) := by
      rw [RawSlots.new, accepted]
      exact ⟨_, rfl⟩
    have holds := each memory _ start created [] _ (.refl _) _ List.mem_cons_self i inside
    rw [RawSlots.getRecordMetadata, (RawSlots.slotSize_new created).2] at holds
    exact holds
  · intro holds memory slots start created trace last run handle member i inside
    obtain ⟨same, slotSize⟩ := RawSlots.slotSize_new created
    obtain rfl := same
    have begun : RawStore.Steady layout basePtr
        (wrappingAdd Slots.slotMetadataSize dataSize) ⟨start, [⟨basePtr⟩]⟩ :=
      ⟨by simp, slotSize⟩
    have steady := begun.run run
    obtain rfl := steady.handles handle member
    rw [RawSlots.getRecordMetadata, steady.slotSize]
    exact holds i inside

end Run

/-! ### Both blocks of a table -/

section Table
variable {K B : Type} {platform : Platform B} {faults : Action → Option Errno} {kernel : Kernel B}
  {layout : NodeLayout K B} {hasher : K → Nat} {name : String} {capacity recordSize : Nat}
  {table : SharedTable K B} {after : Kernel B}

/-- The stride keeps its residue even where it wraps around. -/
theorem stride_residue (dataSize : Nat) :
    wrappingAdd Slots.slotMetadataSize dataSize % 8 = dataSize % 8 := by
  rw [wrappingAdd, Nat.mod_mod_of_dvd _ (show 8 ∣ usizeModulus by decide)]
  simp only [Slots.slotMetadataSize]
  omega

/-- The second slot decides: its address is one stride behind the first. -/
theorem addresses_aligned_iff {base stride : Nat} (aligned : base % 8 = 0)
    (positive : 1 ≤ capacity) :
    (∀ i < capacity, AlignedAt (base + i * stride)) ↔ capacity = 1 ∨ stride % 8 = 0 := by
  constructor
  · intro all
    rcases Nat.lt_or_ge 1 capacity with several | single
    · have second : (base + 1 * stride) % 8 = 0 := all 1 several
      omega
    · exact .inl (by omega)
  · rintro (rfl | whole) i inside
    · obtain rfl : i = 0 := by omega
      simpa [AlignedAt, slotMetadataAlignment] using aligned
    · have multiple : i * stride % 8 = 0 := by rw [Nat.mul_mod, whole, Nat.mul_zero]
      simp only [AlignedAt, slotMetadataAlignment]
      omega

theorem records_aligned_iff (fields : HeaderLayout) (page : Nat) (positive : 1 ≤ capacity) :
    EachRecord fields (Header.data (pageSize * page) tableHeaderSize) capacity recordSize AlignedAt ↔
      capacity = 1 ∨ recordSize % 8 = 0 := by
  have base : Header.data (Header.data (pageSize * page) tableHeaderSize) slotsHeaderSize % 8 = 0 := by
    simp only [Header.data, pageSize, tableHeaderSize, slotsHeaderSize]
    omega
  rw [eachRecord_iff fields (checkAligned_slots page), addresses_aligned_iff base positive,
    stride_residue]

/-- Nodes are padded to whole words: their slots are always aligned. -/
theorem nodes_aligned (fields : HeaderLayout) (page : Nat) {nodeSize : Nat}
    (positive : 1 ≤ capacity) (words : nodeSize % 8 = 0) :
    EachRecord fields (pageSize * page + Index.totalBucketsSize capacity) capacity nodeSize
      (fun address => AlignedAt address ∧ AlignedAt (address + Slots.slotMetadataSize)) := by
  have base : Header.data (pageSize * page + Index.totalBucketsSize capacity)
      slotsHeaderSize % 8 = 0 := by
    have buckets : Index.totalBucketsSize capacity % 8 = 0 := by
      rw [Index.totalBucketsSize, wrappingMul, Nat.mod_mod_of_dvd _ (show 8 ∣ usizeModulus by decide),
        bucketSize, Nat.mul_mod_right]
    simp only [Header.data, pageSize, slotsHeaderSize]
    omega
  have stride := (stride_residue nodeSize).trans words
  have aligned := (addresses_aligned_iff base positive).mpr (.inr stride)
  rw [eachRecord_iff fields (checkAligned_nodes page capacity)]
  intro i inside
  have metadata := aligned i inside
  refine ⟨metadata, ?_⟩
  simp only [AlignedAt, slotMetadataAlignment, Slots.slotMetadataSize] at metadata ⊢
  omega

/-- All references to slots of a new table, and to the nodes in its index, are
aligned exactly for a single record or a record size in whole words. -/
theorem slot_references_aligned (positive : 1 ≤ capacity) (words : layout.size % 8 = 0)
    (created : (SharedTable.createWithSize platform layout hasher name capacity
      recordSize).program.run (platform.exec faults) kernel = (.ok table, after))
    (fields : HeaderLayout) :
    (EachRecord fields (Header.data table.block.ptr tableHeaderSize) capacity recordSize AlignedAt ∧
      EachRecord fields (table.primaryKeys.block.ptr + Index.totalBucketsSize capacity) capacity
        layout.size
        (fun address => AlignedAt address ∧ AlignedAt (address + Slots.slotMetadataSize))) ↔
    capacity = 1 ∨ recordSize % 8 = 0 := by
  obtain ⟨-, -, -, rfl⟩ := SharedTable.create_ok_inv created
  constructor
  · rintro ⟨records, -⟩
    exact (records_aligned_iff fields _ positive).mp records
  · intro whole
    exact ⟨(records_aligned_iff fields _ positive).mpr whole, nodes_aligned fields _ positive words⟩

/-- A layout of nodes over three words, each of which is kept whole. -/
def NodeLayout.threeWords (K : Type) : NodeLayout K (Node K) where
  size := 24
  size_lt := by decide
  toBytes node := List.replicate 24 node
  ofBytes cells := cells.head?
  length_toBytes _ := List.length_replicate
  ofBytes_toBytes _ := rfl

/-- Two records fit on the sample platform. -/
theorem sample_creates_two {recordSize : Nat}
    (mappable : SharedTable.Mappable (Table.calculateTotalSize 2 recordSize)) :
    ∃ table after, (SharedTable.createWithSize .sample (.threeWords UInt8) UInt8.toNat "t" 2
      recordSize).program.run (Platform.sample.exec noFault) (.empty .sample) = (.ok table, after) := by
  have absent (r : Resource) : (Kernel.empty Platform.sample).resource "t" r = none := by
    cases r <;> rfl
  have fits : SharedTable.Fits .sample (.threeWords UInt8) "t" 2 recordSize :=
    SharedTable.sample_fits (by decide) mappable
      (by unfold SharedTable.Mappable; decide +kernel) (by decide +kernel)
  obtain ⟨table, after, created, -⟩ :=
    SharedTable.create_distinct UInt8.toNat absent fits (by decide +kernel)
  exact ⟨table, after, created⟩

theorem slot_references_aligned_words :
    ∃ table : SharedTable UInt8 (Node UInt8),
      EachRecord .declared (Header.data table.block.ptr tableHeaderSize) 2 8 AlignedAt := by
  obtain ⟨table, after, created⟩ :=
    @sample_creates_two 8 (by unfold SharedTable.Mappable; decide +kernel)
  exact ⟨table, ((slot_references_aligned (by decide) (by decide) created .declared).mpr
    (.inr (by decide))).1⟩

/-- With two records of one byte the metadata of the second is off by one. -/
theorem slot_reference_misaligned :
    ∃ (table : SharedTable UInt8 (Node UInt8)) (after : Kernel (Node UInt8)),
      (SharedTable.createWithSize .sample (.threeWords UInt8) UInt8.toNat "t" 2 1).program.run
        (Platform.sample.exec noFault) (.empty .sample) = (.ok table, after) ∧
      ¬ EachRecord .declared (Header.data table.block.ptr tableHeaderSize) 2 1 AlignedAt := by
  obtain ⟨table, after, created⟩ :=
    @sample_creates_two 1 (by unfold SharedTable.Mappable; decide +kernel)
  refine ⟨table, after, created, ?_⟩
  obtain ⟨-, -, -, rfl⟩ := SharedTable.create_ok_inv created
  intro aligned
  have whole := (records_aligned_iff .declared _ (by decide)).mp aligned
  exact absurd whole (by decide)

end Table
end InMemoryTable
