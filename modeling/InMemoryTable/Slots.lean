import InMemoryTable.Error
import Mathlib.Algebra.Group.Nat.Defs
import Mathlib.Logic.Function.Basic

/-! The slot store: a header and a sequence of slots in shared memory, with the
free slots threaded into a list through their `size` fields. Memory is modeled
slot by slot, each slot with its metadata and the buffer behind it; `B` is the
type of a memory cell. The same store holds the records and the index nodes. -/
namespace InMemoryTable

/-- A value of `usize` wraps around at this number. -/
def usizeModulus : Nat := 2 ^ 64

def wrappingAdd (a b : Nat) : Nat := (a + b) % usizeModulus

def wrappingSub (a b : Nat) : Nat := if b ≤ a then a - b else usizeModulus - (b - a)

def wrappingMul (a b : Nat) : Nat := a * b % usizeModulus

/-- `self - 1` on `usize` as a release build computes it. -/
def wrappingDecrement (value : Nat) : Nat := if value = 0 then usizeModulus - 1 else value - 1

inductive SlotState where
  | free
  | occupied
  deriving DecidableEq, Repr

/-- `size` is the next free slot in a free slot, otherwise the length of the
data at the start of `buffer`. -/
structure Slot (B : Type) where
  state : SlotState
  size : Nat
  buffer : List B
  deriving DecidableEq, Repr

structure SlotsHeader where
  capacity : Nat
  count : Nat
  slotSize : Nat
  firstFree : Nat
  deriving DecidableEq, Repr

def SlotsHeader.new (capacity slotSize : Nat) : SlotsHeader :=
  { capacity, count := 0, firstFree := 0, slotSize }

structure Slots (B : Type) where
  header : SlotsHeader
  slot : Nat → Slot B

namespace Slots
variable {B : Type}

def slotMetadataSize : Nat := 16

/-- A store to the metadata of one slot. -/
def setMetadata (self : Slots B) (index : Nat) (state : SlotState) (size : Nat) : Slots B :=
  let record := { self.slot index with state, size }
  { self with slot := Function.update self.slot index record }

def initializeFreeList (self : Slots B) : Slots B :=
  let capacity := self.header.capacity
  (List.range capacity).foldl
    (fun slots i => slots.setMetadata i .free (if i + 1 < capacity then i + 1 else capacity)) self

/-- `memory` is what the memory behind the header held before. -/
def new (memory : Nat → Slot B) (capacity dataSize : Nat) : Slots B :=
  let slotSize := wrappingAdd slotMetadataSize dataSize
  initializeFreeList { header := .new capacity slotSize, slot := memory }

def count (self : Slots B) : Nat := self.header.count

/-- The largest data a slot takes. -/
def maxData (self : Slots B) : Nat := wrappingSub self.header.slotSize slotMetadataSize

def setRecordData (self : Slots B) (index : Nat) (data : List B) : Slots B :=
  let record :=
    { state := .occupied, size := data.length,
      buffer := data ++ (self.slot index).buffer.drop data.length }
  { self with slot := Function.update self.slot index record }

def insert (self : Slots B) (data : List B) : Except InMemoryTableError Nat × Slots B :=
  if self.header.count ≥ self.header.capacity then
    (.error (.tableFull self.header.count self.header.capacity), self)
  else if data.length > self.maxData then
    (.error (.recordSizeTooBig data.length self.maxData), self)
  else
    let index := self.header.firstFree
    let nextFree := (self.slot index).size
    let self := { self with header := { self.header with
      firstFree := nextFree, count := self.header.count + 1 } }
    (.ok index, self.setRecordData index data)

def update (self : Slots B) (index : Nat) (data : List B) :
    Except InMemoryTableError Unit × Slots B :=
  if data.length > self.maxData then
    (.error (.recordSizeTooBig data.length self.maxData), self)
  else
    (.ok (), self.setRecordData index data)

/-- The bytes of an occupied slot, the empty slice for a free one. -/
def get (self : Slots B) (index : Nat) : List B :=
  let record := self.slot index
  if record.state = .free then [] else record.buffer.take record.size

def remove (self : Slots B) (index : Nat) : Slots B :=
  let nextFree := self.header.firstFree
  let self := self.setMetadata index .free nextFree
  { self with header := { self.header with
    firstFree := index, count := wrappingDecrement self.header.count } }

def isFree (self : Slots B) (index : Nat) : Bool := (self.slot index).state == .free

def isOccupied (self : Slots B) (index : Nat) : Bool := (self.slot index).state == .occupied

end Slots
end InMemoryTable
