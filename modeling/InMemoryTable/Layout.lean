import InMemoryTable.Library.RoundToEven
import InMemoryTable.Slots

/-! Sizes and offsets of the two shared memory blocks. Sizes are computed on
`usize` and wrap around; offsets count bytes from the start of a block. -/
namespace InMemoryTable

/-- `size_of::<TableHeader>()`: six bytes of magic and an aligned `usize`. -/
def tableHeaderSize : Nat := 16

/-- `size_of::<SlotsHeader>()`: four `usize` fields. -/
def slotsHeaderSize : Nat := 32

/-- `size_of::<Bucket>()`: one offset. -/
def bucketSize : Nat := 8

def Slots.calculateRequiredSize (capacity dataSize : Nat) : Nat :=
  let slotSize := wrappingAdd slotMetadataSize dataSize
  wrappingMul slotSize capacity

def Table.calculateTotalSize (capacity recordSize : Nat) : Nat :=
  wrappingAdd tableHeaderSize (Slots.calculateRequiredSize capacity recordSize)

/-- `(size as f64 * 0.75).ceil() as usize`: the conversion and the product round
to 53 bits, and the product is held in quarters. -/
def totalBuckets (size : Nat) : Nat :=
  (roundToEven 53 (3 * roundToEven 53 size) + 3) / 4

def Index.totalBucketsSize (size : Nat) : Nat := wrappingMul bucketSize (totalBuckets size)

/-- `total_size` in `Index::new`, for nodes of `nodeSize` bytes. -/
def Index.totalSize (size nodeSize : Nat) : Nat :=
  wrappingAdd (Index.totalBucketsSize size) (Slots.calculateRequiredSize size nodeSize)

/-- `Header::data`: the data starts behind the header. -/
def Header.data (basePtr headerSize : Nat) : Nat := basePtr + headerSize

theorem totalBuckets_pos {size : Nat} (positive : 1 ≤ size) : 0 < totalBuckets size := by
  have converted : 0 < roundToEven 53 size := roundToEven_pos (by decide) positive
  have product : 0 < roundToEven 53 (3 * roundToEven 53 size) :=
    roundToEven_pos (by decide) (by omega)
  unfold totalBuckets
  omega

/-- Below 2^51 no bit is lost: the number of buckets is three quarters of the
capacity, rounded up. -/
theorem totalBuckets_exact {size : Nat} (small : size < 2 ^ 51) :
    totalBuckets size = (3 * size + 3) / 4 := by
  rw [totalBuckets, roundToEven_exact (x := size) (by decide) (by omega),
    roundToEven_exact (by decide) (by omega)]

/-! ### The bytes addressed -/

/-- Offset of slot `index` of a store whose header is at `basePtr`. -/
def Slots.slotOffset (basePtr dataSize index : Nat) : Nat :=
  Header.data basePtr slotsHeaderSize + index * (slotMetadataSize + dataSize)

/-- The bytes that `Slots` addresses: its header, and for each slot the
metadata and the data behind it. -/
inductive Slots.Addresses (basePtr capacity dataSize : Nat) : Nat → Prop where
  | header {offset : Nat} : basePtr ≤ offset → offset < Header.data basePtr slotsHeaderSize →
      Addresses basePtr capacity dataSize offset
  | metadata {index offset : Nat} : index < capacity →
      slotOffset basePtr dataSize index ≤ offset →
      offset < slotOffset basePtr dataSize index + slotMetadataSize →
      Addresses basePtr capacity dataSize offset
  | data {index offset : Nat} : index < capacity →
      slotOffset basePtr dataSize index + slotMetadataSize ≤ offset →
      offset < slotOffset basePtr dataSize index + slotMetadataSize + dataSize →
      Addresses basePtr capacity dataSize offset

/-- The bytes addressed in the data block: the table header and the slots. -/
inductive Table.Addresses (capacity recordSize : Nat) : Nat → Prop where
  | header {offset : Nat} : offset < tableHeaderSize → Addresses capacity recordSize offset
  | slots {offset : Nat} :
      Slots.Addresses (Header.data 0 tableHeaderSize) capacity recordSize offset →
      Addresses capacity recordSize offset

/-- No `usize` operation on the sizes of a block wraps around. -/
def Slots.NoWrap (basePtr capacity dataSize : Nat) : Prop :=
  basePtr + slotsHeaderSize + (slotMetadataSize + dataSize) * capacity < usizeModulus

/-- The stride of the slots, and the size of a block with the slots behind `first`
bytes, are numbers of 64 bits. -/
structure Slots.SizeFits (first capacity dataSize : Nat) : Prop where
  stride : slotMetadataSize + dataSize < usizeModulus
  total : first + (slotMetadataSize + dataSize) * capacity < usizeModulus

theorem Slots.calculateRequiredSize_exact {basePtr capacity dataSize : Nat}
    (noWrap : NoWrap basePtr capacity dataSize) (positive : 1 ≤ capacity) :
    calculateRequiredSize capacity dataSize = (slotMetadataSize + dataSize) * capacity := by
  have one : (slotMetadataSize + dataSize) * 1 ≤ (slotMetadataSize + dataSize) * capacity :=
    Nat.mul_le_mul_left _ positive
  unfold NoWrap at noWrap
  simp only [calculateRequiredSize, wrappingAdd, wrappingMul]
  rw [Nat.mod_eq_of_lt (a := slotMetadataSize + dataSize) (by omega), Nat.mod_eq_of_lt (by omega)]

/-- The end of the last slot. -/
theorem Slots.slotOffset_last (basePtr dataSize capacity : Nat) :
    slotOffset basePtr dataSize capacity =
      basePtr + slotsHeaderSize + (slotMetadataSize + dataSize) * capacity := by
  simp only [slotOffset, Header.data, Nat.mul_comm]

/-- A store reaches up to the end of its last slot, whose last byte belongs to
the metadata when the slots hold no data. -/
theorem Slots.addresses_last {basePtr capacity dataSize : Nat} (positive : 1 ≤ capacity) :
    Addresses basePtr capacity dataSize (slotOffset basePtr dataSize capacity - 1) := by
  obtain ⟨last, rfl⟩ : ∃ last, capacity = last + 1 := ⟨capacity - 1, by omega⟩
  have step : slotOffset basePtr dataSize (last + 1) =
      slotOffset basePtr dataSize last + (slotMetadataSize + dataSize) := by
    simp only [slotOffset, Nat.add_mul, Nat.one_mul]
    omega
  rcases Nat.eq_zero_or_pos dataSize with rfl | some
  · refine .metadata (Nat.lt_succ_self last) ?_ ?_ <;> rw [step] <;> simp only [slotMetadataSize] <;>
      omega
  · refine .data (Nat.lt_succ_self last) ?_ ?_ <;> rw [step] <;> simp only [slotMetadataSize] <;>
      omega

/-! ### The totals fall short of the last slot by the slots header -/

theorem Table.calculateTotalSize_short {capacity recordSize : Nat} (positive : 1 ≤ capacity)
    (noWrap : Slots.NoWrap (Header.data 0 tableHeaderSize) capacity recordSize) :
    calculateTotalSize capacity recordSize + slotsHeaderSize =
      Slots.slotOffset (Header.data 0 tableHeaderSize) recordSize capacity := by
  rw [calculateTotalSize, Slots.calculateRequiredSize_exact noWrap positive, Slots.slotOffset_last]
  unfold Slots.NoWrap at noWrap
  simp only [wrappingAdd, Header.data] at noWrap ⊢
  rw [Nat.mod_eq_of_lt (by omega)]
  omega

theorem Index.totalSize_short {size nodeSize : Nat} (positive : 1 ≤ size)
    (noWrap : Slots.NoWrap (totalBucketsSize size) size nodeSize) :
    totalSize size nodeSize + slotsHeaderSize =
      Slots.slotOffset (totalBucketsSize size) nodeSize size := by
  rw [totalSize, Slots.calculateRequiredSize_exact noWrap positive, Slots.slotOffset_last]
  unfold Slots.NoWrap at noWrap
  simp only [wrappingAdd]
  rw [Nat.mod_eq_of_lt (by omega)]
  omega

theorem Table.overruns {capacity recordSize : Nat} (positive : 1 ≤ capacity)
    (noWrap : Slots.NoWrap (Header.data 0 tableHeaderSize) capacity recordSize) :
    ¬ ∀ offset, Addresses capacity recordSize offset →
      offset < calculateTotalSize capacity recordSize := by
  intro inside
  have last := inside _ (.slots (Slots.addresses_last positive))
  have short := calculateTotalSize_short positive noWrap
  simp only [slotsHeaderSize] at short
  omega

theorem Index.overruns {size nodeSize : Nat} (positive : 1 ≤ size)
    (noWrap : Slots.NoWrap (totalBucketsSize size) size nodeSize) :
    ¬ ∀ offset, Slots.Addresses (totalBucketsSize size) size nodeSize offset →
      offset < totalSize size nodeSize := by
  intro inside
  have last := inside _ (Slots.addresses_last positive)
  have short := totalSize_short positive noWrap
  simp only [slotsHeaderSize] at short
  omega

/-- For no capacity and no record or node size do all addressed bytes lie inside
the block: neither total counts the slots header. -/
theorem blocks_never_contain (capacity recordSize nodeSize : Nat) (positive : 1 ≤ capacity)
    (table : Slots.NoWrap (Header.data 0 tableHeaderSize) capacity recordSize)
    (index : Slots.NoWrap (Index.totalBucketsSize capacity) capacity nodeSize) :
    (¬ ∀ offset, Table.Addresses capacity recordSize offset →
      offset < Table.calculateTotalSize capacity recordSize) ∧
    (¬ ∀ offset, Slots.Addresses (Index.totalBucketsSize capacity) capacity nodeSize offset →
      offset < Index.totalSize capacity nodeSize) :=
  ⟨Table.overruns positive table, Index.overruns positive index⟩

theorem blocks_never_contain_default :
    (¬ ∀ offset, Table.Addresses 10 2048 offset → offset < Table.calculateTotalSize 10 2048) ∧
    (¬ ∀ offset, Slots.Addresses (Index.totalBucketsSize 10) 10 24 offset →
      offset < Index.totalSize 10 24) :=
  blocks_never_contain 10 2048 24 (by decide) (by unfold Slots.NoWrap; decide)
    (by unfold Slots.NoWrap; decide)

/-- Ten records of the default size: byte 20687 belongs to the last record, the
block has 20656 bytes. -/
theorem default_table_overruns :
    Table.Addresses 10 2048 20687 ∧ Table.calculateTotalSize 10 2048 = 20656 ∧
    ¬ ∀ offset, Table.Addresses 10 2048 offset → offset < Table.calculateTotalSize 10 2048 :=
  ⟨.slots (.data (show 9 < 10 by decide) (by decide) (by decide)), by decide,
    Table.overruns (by decide) (by unfold Slots.NoWrap; decide)⟩

end InMemoryTable
