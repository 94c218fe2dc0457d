import InMemoryTable.Library.ByteMemory
import InMemoryTable.Lifecycle
import InMemoryTable.SlotsRun

/-! The slot store on raw bytes: a handle is the address of the header, and every
field is a typed view of some bytes behind that address. -/
namespace InMemoryTable
open ByteMemory

/-- `size_of::<usize>()` -/
def usizeSize : Nat := 8

inductive HeaderField where
  | capacity
  | count
  | slotSize
  | firstFree
  deriving DecidableEq

/-- The order in which the compiler lays out the fields of `SlotsHeader`. -/
structure HeaderLayout where
  word : HeaderField → Fin 4
  injective : Function.Injective word

/-- The fields in the order of their declaration. -/
def HeaderLayout.declared : HeaderLayout where
  word
    | .capacity => 0
    | .count => 1
    | .slotSize => 2
    | .firstFree => 3
  injective f g same := by cases f <;> cases g <;> first | rfl | exact absurd same (by decide)

def HeaderLayout.address (layout : HeaderLayout) (basePtr : Nat) (f : HeaderField) : Nat :=
  basePtr + usizeSize * layout.word f

def SlotState.byte : SlotState → UInt8
  | .free => 0
  | .occupied => 1

/-- The byte as a comparison with `Free` sees it. -/
def SlotState.ofByte (byte : UInt8) : SlotState := if byte = 0 then .free else .occupied

/-! ### The fields behind a pointer to `SlotMetadata` -/

namespace SlotMetadata
variable (memory : ByteMemory) (record : Nat)

/-- `size` follows the state and seven bytes of padding. -/
def sizeOffset : Nat := 8

def state : SlotState := .ofByte (memory record)

def size : Nat := memory.readWord (record + sizeOffset) usizeSize

def setState (state : SlotState) : ByteMemory := memory.write record [state.byte]

def setSize (size : Nat) : ByteMemory := memory.writeWord (record + sizeOffset) usizeSize size

end SlotMetadata

/-- `Slots`, which holds nothing but the `base_ptr` of its header. -/
structure RawSlots where
  basePtr : Nat
  deriving DecidableEq

namespace RawSlots
variable (layout : HeaderLayout) (self : RawSlots) (memory : ByteMemory)

/-- A field of the header, through `Deref`. -/
def field (f : HeaderField) : Nat := memory.readWord (layout.address self.basePtr f) usizeSize

/-- A store to a field of the header, through `DerefMut`. -/
def setField (f : HeaderField) (value : Nat) : ByteMemory :=
  memory.writeWord (layout.address self.basePtr f) usizeSize value

/-- `ptr::write` of a header. -/
def writeHeader (header : SlotsHeader) : ByteMemory :=
  let memory := self.setField layout memory .capacity header.capacity
  let memory := self.setField layout memory .count header.count
  let memory := self.setField layout memory .slotSize header.slotSize
  self.setField layout memory .firstFree header.firstFree

def getRecordMetadata (index : Nat) : Nat :=
  Header.data self.basePtr slotsHeaderSize + index * self.field layout memory .slotSize

def initializeFreeList : ByteMemory :=
  let capacity := self.field layout memory .capacity
  (List.range capacity).foldl
    (fun memory i =>
      let slot := self.getRecordMetadata layout memory i
      let memory := SlotMetadata.setState memory slot .free
      SlotMetadata.setSize memory slot (if i + 1 < capacity then i + 1 else capacity)) memory

/-- `Slots::new` -/
def new (basePtr capacity dataSize : Nat) : Except InMemoryTableError RawSlots × ByteMemory :=
  let slotSize := wrappingAdd Slots.slotMetadataSize dataSize
  match checkAligned basePtr headerAlignment with
  | .error e => (.error e, memory)
  | .ok () =>
    let slots : RawSlots := { basePtr }
    let memory := slots.writeHeader layout memory (.new capacity slotSize)
    (.ok slots, slots.initializeFreeList layout memory)

/-- `Slots::open` -/
def openExisting (basePtr : Nat) : Except InMemoryTableError RawSlots :=
  match checkAligned basePtr headerAlignment with
  | .error e => .error e
  | .ok () => .ok { basePtr }

def setRecordData (index : Nat) (data : List UInt8) : ByteMemory :=
  let ptr := self.getRecordMetadata layout memory index
  let memory := SlotMetadata.setState memory ptr .occupied
  let memory := SlotMetadata.setSize memory ptr data.length
  memory.write (ptr + Slots.slotMetadataSize) data

def maxData : Nat := wrappingSub (self.field layout memory .slotSize) Slots.slotMetadataSize

def insert (data : List UInt8) : Except InMemoryTableError Nat × ByteMemory :=
  let count := self.field layout memory .count
  let capacity := self.field layout memory .capacity
  if count ≥ capacity then (.error (.tableFull count capacity), memory)
  else if data.length > self.maxData layout memory then
    (.error (.recordSizeTooBig data.length (self.maxData layout memory)), memory)
  else
    let index := self.field layout memory .firstFree
    let nextFree := SlotMetadata.size memory (self.getRecordMetadata layout memory index)
    let memory := self.setField layout memory .firstFree nextFree
    let memory := self.setField layout memory .count (self.field layout memory .count + 1)
    (.ok index, self.setRecordData layout memory index data)

def update (index : Nat) (data : List UInt8) : Except InMemoryTableError Unit × ByteMemory :=
  if data.length > self.maxData layout memory then
    (.error (.recordSizeTooBig data.length (self.maxData layout memory)), memory)
  else (.ok (), self.setRecordData layout memory index data)

def get (index : Nat) : List UInt8 :=
  let record := self.getRecordMetadata layout memory index
  if SlotMetadata.state memory record = .free then []
  else memory.read (record + Slots.slotMetadataSize) (SlotMetadata.size memory record)

def remove (index : Nat) : ByteMemory :=
  let nextFree := self.field layout memory .firstFree
  let memory := SlotMetadata.setState memory (self.getRecordMetadata layout memory index) .free
  let memory := SlotMetadata.setSize memory (self.getRecordMetadata layout memory index) nextFree
  let memory := self.setField layout memory .firstFree index
  self.setField layout memory .count (wrappingDecrement (self.field layout memory .count))

def isFree (index : Nat) : Bool :=
  SlotMetadata.state memory (self.getRecordMetadata layout memory index) == .free

def isOccupied (index : Nat) : Bool :=
  SlotMetadata.state memory (self.getRecordMetadata layout memory index) == .occupied

/-! ### The store that the bytes show -/

def headerView : SlotsHeader where
  capacity := self.field layout memory .capacity
  count := self.field layout memory .count
  slotSize := self.field layout memory .slotSize
  firstFree := self.field layout memory .firstFree

/-- The slot at an address, with `dataSize` bytes behind its metadata. -/
def slotView (memory : ByteMemory) (record dataSize : Nat) : Slot UInt8 where
  state := SlotMetadata.state memory record
  size := SlotMetadata.size memory record
  buffer := memory.read (record + Slots.slotMetadataSize) dataSize

def view (dataSize : Nat) : Slots UInt8 where
  header := self.headerView layout memory
  slot index := slotView memory (Slots.slotOffset self.basePtr dataSize index) dataSize

/-! ### What a write shows and what it leaves alone -/

variable {layout : HeaderLayout} {self : RawSlots} {memory before after : ByteMemory}
  {dataSize index record value : Nat} {data : List UInt8} {f g : HeaderField}

/-- No byte outside one slot has changed. -/
abbrev SlotFrame (self : RawSlots) (dataSize index : Nat) (before after : ByteMemory) : Prop :=
  Frame (Slots.slotOffset self.basePtr dataSize index)
    (Slots.slotOffset self.basePtr dataSize index + (Slots.slotMetadataSize + dataSize))
    before after

/-- No byte outside the header has changed. -/
abbrev HeaderFrame (self : RawSlots) (before after : ByteMemory) : Prop :=
  Frame self.basePtr (Header.data self.basePtr slotsHeaderSize) before after

theorem word_eq {value : Nat} (small : value < usizeModulus) : value % 256 ^ usizeSize = value :=
  Nat.mod_eq_of_lt small

theorem field_lt : self.field layout memory f < usizeModulus := readWord_lt

theorem size_lt : SlotMetadata.size memory record < usizeModulus := readWord_lt

theorem address_bounds : self.basePtr ≤ layout.address self.basePtr f ∧
    layout.address self.basePtr f + usizeSize ≤ Header.data self.basePtr slotsHeaderSize := by
  have inside := (layout.word f).isLt
  simp only [HeaderLayout.address, usizeSize, Header.data, slotsHeaderSize]
  omega

theorem address_apart (different : g ≠ f) :
    layout.address self.basePtr g + usizeSize ≤ layout.address self.basePtr f ∨
      layout.address self.basePtr f + usizeSize ≤ layout.address self.basePtr g := by
  have words : (layout.word g : Nat) ≠ layout.word f :=
    fun same => different (layout.injective (Fin.ext same))
  simp only [HeaderLayout.address, usizeSize]
  omega

theorem setField_frame : HeaderFrame self memory (self.setField layout memory f value) :=
  .writeWord address_bounds.1 address_bounds.2

theorem field_setField_self (small : value < usizeModulus) :
    self.field layout (self.setField layout memory f value) f = value :=
  readWord_writeWord.trans (word_eq small)

theorem field_setField_other (different : g ≠ f) :
    self.field layout (self.setField layout memory f value) g = self.field layout memory g :=
  (Frame.writeWord (Nat.le_refl _) (Nat.le_refl _)).readWord (address_apart different)

theorem field_of_frame {low high : Nat} (changed : Frame low high before after)
    (behind : Header.data self.basePtr slotsHeaderSize ≤ low) :
    self.field layout after f = self.field layout before f :=
  changed.readWord (.inl (address_bounds.2.trans behind))

theorem headerView_of_frame {low high : Nat} (changed : Frame low high before after)
    (behind : Header.data self.basePtr slotsHeaderSize ≤ low) :
    self.headerView layout after = self.headerView layout before := by
  simp only [headerView, field_of_frame changed behind]

theorem headerView_firstFree (small : value < usizeModulus) :
    self.headerView layout (self.setField layout memory .firstFree value) =
      { self.headerView layout memory with firstFree := value } := by
  simp only [headerView, field_setField_self small, ne_eq, reduceCtorEq, not_false_eq_true,
    field_setField_other]

theorem headerView_count (small : value < usizeModulus) :
    self.headerView layout (self.setField layout memory .count value) =
      { self.headerView layout memory with count := value } := by
  simp only [headerView, field_setField_self small, ne_eq, reduceCtorEq, not_false_eq_true,
    field_setField_other]

theorem headerView_writeHeader {header : SlotsHeader} (capacity : header.capacity < usizeModulus)
    (count : header.count < usizeModulus) (slotSize : header.slotSize < usizeModulus)
    (firstFree : header.firstFree < usizeModulus) :
    self.headerView layout (self.writeHeader layout memory header) = header := by
  simp only [headerView, writeHeader, field_setField_self capacity, field_setField_self count,
    field_setField_self slotSize, field_setField_self firstFree, ne_eq, reduceCtorEq,
    not_false_eq_true, field_setField_other]

/-! ### Slots do not overlap -/

theorem slotOffset_succ (basePtr dataSize index : Nat) :
    Slots.slotOffset basePtr dataSize (index + 1) =
      Slots.slotOffset basePtr dataSize index + (Slots.slotMetadataSize + dataSize) := by
  simp only [Slots.slotOffset, Nat.add_mul, Nat.one_mul]
  omega

theorem slotOffset_le {basePtr i j : Nat} (le : i ≤ j) :
    Slots.slotOffset basePtr dataSize i ≤ Slots.slotOffset basePtr dataSize j :=
  Nat.add_le_add_left (Nat.mul_le_mul_right _ le) _

/-- One of two slots ends before the other starts. -/
theorem slots_apart (basePtr dataSize : Nat) {i j : Nat} (different : j ≠ i) :
    Slots.slotOffset basePtr dataSize j + (Slots.slotMetadataSize + dataSize) ≤
        Slots.slotOffset basePtr dataSize i ∨
      Slots.slotOffset basePtr dataSize i + (Slots.slotMetadataSize + dataSize) ≤
        Slots.slotOffset basePtr dataSize j := by
  rw [← slotOffset_succ, ← slotOffset_succ]
  rcases Nat.lt_or_gt_of_ne different with lower | upper
  · exact .inl (slotOffset_le lower)
  · exact .inr (slotOffset_le upper)

theorem header_le_slotOffset (basePtr dataSize index : Nat) :
    Header.data basePtr slotsHeaderSize ≤ Slots.slotOffset basePtr dataSize index :=
  Nat.le_add_right ..

theorem slotView_of_frame {low high : Nat} (changed : Frame low high before after)
    (apart : record + (Slots.slotMetadataSize + dataSize) ≤ low ∨ high ≤ record) :
    slotView after record dataSize = slotView before record dataSize := by
  simp only [Slots.slotMetadataSize] at apart
  have state : SlotMetadata.state after record = SlotMetadata.state before record :=
    congrArg SlotState.ofByte (changed record (by omega))
  have size : SlotMetadata.size after record = SlotMetadata.size before record :=
    changed.readWord (by simp only [SlotMetadata.sizeOffset, usizeSize]; omega)
  have buffer : after.read (record + Slots.slotMetadataSize) dataSize =
      before.read (record + Slots.slotMetadataSize) dataSize :=
    changed.read (by simp only [Slots.slotMetadataSize]; omega)
  simp only [slotView, state, size, buffer]

/-- A write within the header. -/
theorem view_of_header (changed : HeaderFrame self before after) :
    self.view layout after dataSize =
      { self.view layout before dataSize with header := self.headerView layout after } := by
  simp only [view, Slots.mk.injEq, true_and]
  funext index
  exact slotView_of_frame changed (.inr (header_le_slotOffset ..))

/-- A write within one slot. -/
theorem view_of_slot (changed : SlotFrame self dataSize index before after) :
    self.view layout after dataSize =
      { self.view layout before dataSize with
        slot := Function.update (self.view layout before dataSize).slot index
          (slotView after (Slots.slotOffset self.basePtr dataSize index) dataSize) } := by
  simp only [view, headerView_of_frame changed (header_le_slotOffset ..), Slots.mk.injEq, true_and]
  funext other
  by_cases same : other = index
  · subst same
    rw [Function.update_self]
  · rw [Function.update_of_ne same]
    exact slotView_of_frame changed (slots_apart _ _ same)

/-! ### Writing a slot -/

theorem setState_frame {state : SlotState} :
    Frame record (record + 1) memory (SlotMetadata.setState memory record state) :=
  .write (Nat.le_refl _) (Nat.le_refl _)

theorem setSize_frame : Frame (record + SlotMetadata.sizeOffset) (record + Slots.slotMetadataSize)
    memory (SlotMetadata.setSize memory record value) :=
  .writeWord (Nat.le_refl _) (Nat.le_refl _)

theorem slotView_setState {state : SlotState} :
    slotView (SlotMetadata.setState memory record state) record dataSize =
      { slotView memory record dataSize with state } := by
  have state_self : SlotMetadata.state (SlotMetadata.setState memory record state) record =
      state := by
    have written : memory.write record [state.byte] (record + 0) = state.byte :=
      write_inside Nat.one_pos
    exact (congrArg SlotState.ofByte written).trans (by cases state <;> rfl)
  have size_self : SlotMetadata.size (SlotMetadata.setState memory record state) record =
      SlotMetadata.size memory record :=
    setState_frame.readWord (.inr (by simp only [SlotMetadata.sizeOffset]; omega))
  have buffer : (SlotMetadata.setState memory record state).read
      (record + Slots.slotMetadataSize) dataSize =
        memory.read (record + Slots.slotMetadataSize) dataSize :=
    setState_frame.read (.inr (by simp only [Slots.slotMetadataSize]; omega))
  simp only [slotView, state_self, size_self, buffer]

theorem slotView_setSize (small : value < usizeModulus) :
    slotView (SlotMetadata.setSize memory record value) record dataSize =
      { slotView memory record dataSize with size := value } := by
  have state : SlotMetadata.state (SlotMetadata.setSize memory record value) record =
      SlotMetadata.state memory record :=
    congrArg SlotState.ofByte
      (setSize_frame record (.inl (by simp only [SlotMetadata.sizeOffset]; omega)))
  have size : SlotMetadata.size (SlotMetadata.setSize memory record value) record = value :=
    readWord_writeWord.trans (word_eq small)
  have buffer : (SlotMetadata.setSize memory record value).read
      (record + Slots.slotMetadataSize) dataSize =
        memory.read (record + Slots.slotMetadataSize) dataSize :=
    setSize_frame.read (.inr (Nat.le_refl _))
  simp only [slotView, state, size, buffer]

theorem slotView_write (fits : data.length ≤ dataSize) :
    slotView (memory.write (record + Slots.slotMetadataSize) data) record dataSize =
      { slotView memory record dataSize with
        buffer := data ++ (slotView memory record dataSize).buffer.drop data.length } := by
  have changed : Frame (record + Slots.slotMetadataSize)
      (record + Slots.slotMetadataSize + data.length) memory
      (memory.write (record + Slots.slotMetadataSize) data) :=
    .write (Nat.le_refl _) (Nat.le_refl _)
  have state : SlotMetadata.state (memory.write (record + Slots.slotMetadataSize) data) record =
      SlotMetadata.state memory record :=
    congrArg SlotState.ofByte
      (changed record (.inl (by simp only [Slots.slotMetadataSize]; omega)))
  have size : SlotMetadata.size (memory.write (record + Slots.slotMetadataSize) data) record =
      SlotMetadata.size memory record :=
    changed.readWord (.inl (Nat.le_refl _))
  simp only [slotView, state, size, read_write fits]

/-- The header tells the size of the slots. -/
def Spaced (layout : HeaderLayout) (self : RawSlots) (memory : ByteMemory) (dataSize : Nat) :
    Prop :=
  self.field layout memory .slotSize = Slots.slotMetadataSize + dataSize

theorem Spaced.getRecordMetadata_eq (spaced : Spaced layout self memory dataSize) (index : Nat) :
    self.getRecordMetadata layout memory index =
      Slots.slotOffset self.basePtr dataSize index := by
  rw [getRecordMetadata, spaced]
  rfl

theorem Spaced.maxData (spaced : Spaced layout self memory dataSize) :
    self.maxData layout memory = dataSize :=
  Slots.stride_sub spaced

theorem SlotFrame.spaced (changed : SlotFrame self dataSize index before after)
    (spaced : Spaced layout self before dataSize) : Spaced layout self after dataSize :=
  (field_of_frame changed (header_le_slotOffset ..)).trans spaced

theorem setRecordData_frame (spaced : Spaced layout self memory dataSize)
    (fits : data.length ≤ dataSize) :
    SlotFrame self dataSize index memory (self.setRecordData layout memory index data) := by
  simp only [setRecordData, spaced.getRecordMetadata_eq]
  refine (setState_frame.mono (Nat.le_refl _) ?_).trans
    ((setSize_frame.mono (Nat.le_add_right ..) ?_).trans (.write (Nat.le_add_right ..) ?_))
  · simp only [Slots.slotMetadataSize]
    omega
  · omega
  · omega

theorem view_setRecordData (spaced : Spaced layout self memory dataSize)
    (fits : data.length ≤ dataSize) (small : dataSize < usizeModulus) :
    self.view layout (self.setRecordData layout memory index data) dataSize =
      (self.view layout memory dataSize).setRecordData index data := by
  rw [view_of_slot (setRecordData_frame spaced fits)]
  simp only [setRecordData, spaced.getRecordMetadata_eq, slotView_write fits,
    slotView_setSize (fits.trans_lt small), slotView_setState]
  rfl

end RawSlots
end InMemoryTable
