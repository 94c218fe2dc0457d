import InMemoryTable.Error
import Mathlib.Algebra.Group.Nat.Defs
import Mathlib.Logic.Function.Basic

/-! The semaphore set of a table: one semaphore for each stripe of records and
one for the whole table. `semop` is a parameter wherever only its outcome
matters; `Semaphores.lock` and `Semaphores.unlock` are its effect on the values
of a set. -/
namespace InMemoryTable

/-- `position as u16`, the field `sem_num` of `sembuf`. -/
def asU16 (position : Nat) : Nat := position % 2 ^ 16

/-- `Locker::try_lock`, given the outcome of `semop` for each semaphore number. -/
def Locker.tryLock {R : Type} (semop : Nat → Except Errno R) (position size : Nat) :
    Except InMemoryTableError R :=
  match semop (asU16 position) with
  | .error errno => .error (.fromSemopError errno position size)
  | .ok locked => .ok locked

structure SemaphoreSet where
  semId : Nat
  stripeSize : Nat
  stripes : Nat
  numRecords : Nat
  deriving DecidableEq, Repr

namespace SemaphoreSet

def STRIPE_SIZE : Nat := 1024

def divCeil (a b : Nat) : Nat := (a + b - 1) / b

/-- The fields that `create` and `open` compute; the kernel chose `semId`. -/
def ofRecords (semId numRecords : Nat) : SemaphoreSet :=
  let stripeSize := if numRecords < STRIPE_SIZE then 1 else STRIPE_SIZE
  { semId, stripeSize, stripes := divCeil numRecords stripeSize + 1, numRecords }

variable (self : SemaphoreSet)

def getIndex (position : Nat) : Nat := position / self.stripeSize

variable {R : Type} (semop : Nat → Except Errno R)

def lock (position : Nat) : Except InMemoryTableError R :=
  let semNum := self.getIndex position
  if semNum > self.stripes then .error (.semaphoreInvalidIndex semNum self.stripes)
  else Locker.tryLock semop (self.getIndex position) self.stripes

def lockTable : Except InMemoryTableError R :=
  Locker.tryLock semop self.numRecords self.stripes

def lockRecord (index : Nat) : Except InMemoryTableError R := self.lock semop index

/-- The number that `lockTable` passes to `semop`. -/
def tableNumber : Nat := asU16 self.numRecords

/-- The number that `lockRecord` passes to `semop`. -/
def recordNumber (index : Nat) : Nat := asU16 (self.getIndex index)

theorem lockTable_ok {locked : R} (done : semop self.tableNumber = .ok locked) :
    self.lockTable semop = .ok locked := by
  have done : semop (asU16 self.numRecords) = .ok locked := done
  simp only [lockTable, Locker.tryLock, done]

theorem divCeil_one (n : Nat) : divCeil n 1 = n := by
  simp [divCeil]

theorem getIndex_le_stripes {semId numRecords index : Nat} (bound : index < numRecords) :
    (ofRecords semId numRecords).getIndex index + 1 < (ofRecords semId numRecords).stripes := by
  simp only [ofRecords, getIndex]
  split
  · rw [divCeil_one, Nat.div_one]
    omega
  · simp only [divCeil, STRIPE_SIZE]
    omega

/-- The number of a record's semaphore always lies in the set. -/
theorem recordNumber_lt {semId numRecords index : Nat} (bound : index < numRecords) :
    (ofRecords semId numRecords).recordNumber index < (ofRecords semId numRecords).stripes :=
  Nat.lt_of_le_of_lt (Nat.mod_le ..) (Nat.lt_of_succ_lt (getIndex_le_stripes bound))

theorem lockRecord_ok {semId numRecords index : Nat} {locked : R} (bound : index < numRecords)
    (done : semop ((ofRecords semId numRecords).recordNumber index) = .ok locked) :
    (ofRecords semId numRecords).lockRecord semop index = .ok locked := by
  have valid : ¬ (ofRecords semId numRecords).getIndex index > (ofRecords semId numRecords).stripes := by
    have := @getIndex_le_stripes semId numRecords index bound
    omega
  have done : semop (asU16 ((ofRecords semId numRecords).getIndex index)) = .ok locked := done
  simp only [lockRecord, lock, valid, if_false, Locker.tryLock, done]

/-- Every semaphore that the locks name exists, and the one of the table is not
one of a record. -/
def NumbersDistinct : Prop :=
  self.tableNumber < self.stripes ∧
    ∀ index < self.numRecords, self.recordNumber index < self.stripes ∧
      self.tableNumber ≠ self.recordNumber index

/-- `lockTable` passes the record count where the stripe count is meant: below
1024 records both agree, from there on only by coincidence modulo 2^16. -/
theorem numbersDistinct_iff (semId numRecords : Nat) :
    (ofRecords semId numRecords).NumbersDistinct ↔
      numRecords < 1024 ∨ numRecords % 65536 = (numRecords + 1023) / 1024 := by
  rcases Nat.lt_or_ge numRecords 1024 with small | large
  · refine iff_of_true ⟨?_, fun index bound => ⟨recordNumber_lt bound, ?_⟩⟩ (.inl small)
    · simp only [tableNumber, asU16, ofRecords, STRIPE_SIZE, small, if_true, divCeil_one]
      omega
    · have bound : index < numRecords := bound
      simp only [tableNumber, recordNumber, asU16, ofRecords, getIndex, STRIPE_SIZE, small, if_true,
        Nat.div_one]
      omega
  · have stripe : (ofRecords semId numRecords).stripeSize = 1024 := by
      simp only [ofRecords, STRIPE_SIZE, Nat.not_lt.mpr large, if_false]
    have stripes : (ofRecords semId numRecords).stripes = (numRecords + 1023) / 1024 + 1 := by
      simp only [ofRecords, STRIPE_SIZE, Nat.not_lt.mpr large, if_false, divCeil]
      omega
    have table : (ofRecords semId numRecords).tableNumber = numRecords % 65536 := rfl
    have record : ∀ index,
        (ofRecords semId numRecords).recordNumber index = index / 1024 % 65536 := by
      intro index
      rw [recordNumber, getIndex, stripe]
      rfl
    simp only [NumbersDistinct, stripes, table, record, Nat.not_lt.mpr large, false_or]
    change (_ ∧ ∀ index < numRecords, _) ↔ _
    constructor
    · rintro ⟨valid, apart⟩
      -- a smaller table number is the number of the first record of that stripe
      by_contra different
      have inside : numRecords % 65536 < (numRecords + 1023) / 1024 := by omega
      have clash := (apart (1024 * (numRecords % 65536)) (by omega)).2
      omega
    · intro same
      refine ⟨by omega, fun index bound => ⟨?_, ?_⟩⟩ <;> omega

/-- With 1024 records the set has two semaphores, and `lockTable` asks for
number 1024. -/
theorem numbersDistinct_fails :
    (ofRecords 0 1024).stripes = 2 ∧ (ofRecords 0 1024).tableNumber = 1024 ∧
      ¬ (ofRecords 0 1024).NumbersDistinct := by
  refine ⟨by decide, by decide, fun distinct => ?_⟩
  exact absurd distinct.1 (by decide)

end SemaphoreSet

/-- The values of the semaphores of one set, by number. -/
abbrev Semaphores := Nat → Nat

namespace Semaphores

def take (values : Semaphores) (semNum : Nat) : Semaphores :=
  Function.update values semNum (values semNum - 1)

/-- `semop` with operation -1 on a set of `size` semaphores: an error for a
number outside the set, otherwise `none` as long as the caller has to wait. -/
def lock (size : Nat) (values : Semaphores) (semNum : Nat) : Except Errno (Option Semaphores) :=
  if semNum < size then
    if 0 < values semNum then .ok (some (values.take semNum))
    else .ok none
  else .error .efbig

/-- `semop` with operation +1 on a number of the set. -/
def unlock (values : Semaphores) (semNum : Nat) : Semaphores :=
  Function.update values semNum (values semNum + 1)

/-- A number of the set is never refused. -/
theorem lock_ok_of_lt {size semNum : Nat} (values : Semaphores) (valid : semNum < size) :
    ∃ locked, lock size values semNum = .ok locked := by
  by_cases positive : 0 < values semNum
  · exact ⟨some (values.take semNum), by simp [lock, valid, positive]⟩
  · exact ⟨none, by simp [lock, valid, positive]⟩

end Semaphores
end InMemoryTable
