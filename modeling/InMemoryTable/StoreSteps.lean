import InMemoryTable.Library.Interleaving
import InMemoryTable.SlotsIterator
import InMemoryTable.TornWrites

/-! `Slots::insert` and `SlotsIterator::next` taken apart: every store of an
insertion and every read of an iterator is a step of its own. Insertions exclude
each other by a semaphore; iterators take none. -/
namespace InMemoryTable
open Interleaving Transition

variable {B ι : Type}

namespace Slots

/-- `header.first_free = next_free` -/
def writeFirstFree (self : Slots B) (nextFree : Nat) : Slots B :=
  { self with header := { self.header with firstFree := nextFree } }

/-- `header.count += 1` -/
def addCount (self : Slots B) : Slots B :=
  { self with header := { self.header with count := self.header.count + 1 } }

end Slots

/-- The slots in shared memory, and the semaphore of those who insert. -/
structure StoreShared (B : Type) where
  slots : Slots B
  semaphore : Nat

/-- The next step of a process that inserts. -/
inductive InsertStage (B : Type) where
  | outside
  | entered (data : List B)
  | addCount (index : Nat) (data : List B)
  | writeState (index : Nat) (data : List B)
  | writeSize (index : Nat) (data : List B)
  | copyBytes (index : Nat) (data : List B)
  | leaving

/-- The next read of a process that iterates. -/
inductive NextStage where
  | resting (iterator : SlotsIterator)
  | scanning (iterator : SlotsIterator)
  | reading (iterator : SlotsIterator)

inductive StoreEvent (B : Type) where
  | locked (data : List B)
  | refused (e : InMemoryTableError)
  | stored
  | inserted (data : List B)
  | unlocked
  | finished
  | remaining
  | examined (index : Nat)
  | yielded (index : Nat) (data : List B)

inductive Member (B : Type) where
  | inserting (stage : InsertStage B)
  | iterating (stage : NextStage)

namespace InsertStage
variable (slots : Slots B)

/-- The stores of `Slots::insert` in the order of the program. -/
def advance : InsertStage B → Option (StoreEvent B × Slots B × InsertStage B)
  | outside | leaving => none
  | entered data =>
    if slots.header.count ≥ slots.header.capacity then
      some (.refused (.tableFull slots.header.count slots.header.capacity), slots, leaving)
    else if data.length > slots.maxData then
      some (.refused (.recordSizeTooBig data.length slots.maxData), slots, leaving)
    else
      let index := slots.header.firstFree
      some (.stored, slots.writeFirstFree (slots.slot index).size, addCount index data)
  | addCount index data => some (.stored, slots.addCount, writeState index data)
  | writeState index data => some (.stored, slots.writeState index .occupied, writeSize index data)
  | writeSize index data => some (.stored, slots.writeSize index data.length, copyBytes index data)
  | copyBytes index data => some (.inserted data, slots.copyBytes index data, leaving)

/-- The semaphore is held from `lock_table` to the drop of the lock. -/
def holds : InsertStage B → Bool
  | outside => false
  | _ => true

/-- The slot that the header counts although its state still says free. -/
def counted : InsertStage B → Option Nat
  | writeState index _ => some index
  | _ => none

/-- The slot that is occupied although its record is not yet stored. -/
def incomplete : InsertStage B → Option Nat
  | writeSize index _ | copyBytes index _ => some index
  | _ => none

end InsertStage

namespace NextStage
variable (slots : Slots B)

/-- The reads of `SlotsIterator::next`: the count, the state of one slot after the
other, and the bytes of the slot it stops at. -/
def advance : NextStage → StoreEvent B × NextStage
  | resting iterator =>
    if iterator.found ≥ slots.count then (.finished, resting iterator)
    else (.remaining, scanning iterator)
  | scanning iterator =>
    if slots.isFree iterator.current then
      (.examined iterator.current, scanning { iterator with current := iterator.current + 1 })
    else (.examined iterator.current, reading { iterator with found := iterator.found + 1 })
  | reading iterator =>
    (.yielded iterator.current (slots.get iterator.current),
      resting { iterator with current := iterator.current + 1 })

end NextStage

/-- One step of one process. What is inserted is its own choice. -/
inductive Member.Moves (shared : StoreShared B) :
    Member B → StoreEvent B → StoreShared B → Member B → Prop where
  | locked (data : List B) : 0 < shared.semaphore →
      Moves shared (.inserting .outside) (.locked data)
        { shared with semaphore := shared.semaphore - 1 } (.inserting (.entered data))
  | stored {stage next : InsertStage B} {event : StoreEvent B} {slots : Slots B} :
      stage.advance shared.slots = some (event, slots, next) →
      Moves shared (.inserting stage) event { shared with slots } (.inserting next)
  | unlocked : Moves shared (.inserting .leaving) .unlocked
      { shared with semaphore := shared.semaphore + 1 } (.inserting .outside)
  | read (stage : NextStage) : Moves shared (.iterating stage) (stage.advance shared.slots).1 shared
      (.iterating (stage.advance shared.slots).2)

/-! ### A call that nobody interrupts -/

section Alone
variable [DecidableEq ι] (config : Config ι (StoreShared B) (Member B)) (c : ι)

/-- The stores of an insertion add up to `Slots::insert`. -/
theorem insert_stores (slots : Slots B) (semaphore : Nat) (data : List B) :
    ∃ trace, Run (Step Member.Moves) (config.moved c ⟨slots, semaphore⟩ (.inserting (.entered data)))
      trace (config.moved c ⟨(slots.insert data).2, semaphore⟩ (.inserting .leaving)) := by
  by_cases full : slots.header.count ≥ slots.header.capacity
  · have refused : (InsertStage.entered data).advance slots = some (.refused
        (.tableFull slots.header.count slots.header.capacity), slots, .leaving) := by
      simp only [InsertStage.advance, full, if_true]
    simp only [Slots.insert, full, if_true]
    exact ⟨_, .next (.again (.stored refused)) (.refl _)⟩
  · by_cases big : data.length > slots.maxData
    · have refused : (InsertStage.entered data).advance slots = some (.refused
          (.recordSizeTooBig data.length slots.maxData), slots, .leaving) := by
        simp only [InsertStage.advance, full, big, if_true, if_false]
      simp only [Slots.insert, full, big, if_true, if_false]
      exact ⟨_, .next (.again (.stored refused)) (.refl _)⟩
    · have first : (InsertStage.entered data).advance slots = some (.stored,
          slots.writeFirstFree (slots.slot slots.header.firstFree).size,
          .addCount slots.header.firstFree data) := by
        simp only [InsertStage.advance, full, big, if_false]
      simp only [Slots.insert, full, big, if_false, ← Slots.setRecordData_steps]
      exact ⟨_, .next (.again (.stored first)) (.next (.again (.stored rfl))
        (.next (.again (.stored rfl)) (.next (.again (.stored rfl))
          (.next (.again (.stored rfl)) (.refl _)))))⟩

/-- A scan examines the slots that `skipFree` lists. -/
theorem scan_reads (shared : StoreShared B) {fuel current last found : Nat} {examined : List Nat}
    (skipped : shared.slots.skipFree fuel current = some (last, examined)) :
    Run (Step Member.Moves) (config.moved c shared (.iterating (.scanning ⟨current, found⟩)))
      (examined.map (fun i => (c, .examined i)))
      (config.moved c shared (.iterating (.reading ⟨last, found + 1⟩))) := by
  induction fuel generalizing current examined with
  | zero => cases skipped
  | succ fuel ih =>
    have moves : Member.Moves shared (.iterating (.scanning ⟨current, found⟩)) _ _ _ := .read _
    simp only [Slots.skipFree] at skipped
    split at skipped
    · rename_i unused
      obtain ⟨⟨stop, rest⟩, walked, same⟩ := Option.map_eq_some_iff.mp skipped
      cases same
      simp only [NextStage.advance, unused, if_true] at moves
      exact .next (.again moves) (ih walked)
    · rename_i used
      cases skipped
      simp only [NextStage.advance, used] at moves
      exact .next (.again moves) (.refl _)

/-- The reads of an iterator add up to `SlotsIterator::next`. -/
theorem next_reads (shared : StoreShared B) {fuel : Nat} {iterator : SlotsIterator}
    {outcome : SlotsIterator.Outcome B}
    (returned : shared.slots.next fuel iterator = some outcome) :
    ∃ trace, Run (Step Member.Moves) (config.moved c shared (.iterating (.resting iterator)))
      trace (config.moved c shared (.iterating (.resting outcome.iterator))) := by
  have counts : Member.Moves shared (.iterating (.resting iterator)) _ _ _ := .read _
  simp only [Slots.next] at returned
  split at returned
  · rename_i finished
    cases returned
    simp only [NextStage.advance, finished, if_true] at counts
    exact ⟨_, .next (.again counts) (.refl _)⟩
  · rename_i remaining
    obtain ⟨⟨last, examined⟩, skipped, rfl⟩ := Option.map_eq_some_iff.mp returned
    simp only [NextStage.advance, remaining, if_false] at counts
    have reads : Member.Moves shared (.iterating (.reading ⟨last, iterator.found + 1⟩)) _ _ _ := .read _
    exact ⟨_, .next (.again counts) ((scan_reads config c shared skipped).trans
      (.next (.again reads) (.refl _)))⟩

end Alone
end InMemoryTable
