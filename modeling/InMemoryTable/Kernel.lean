import InMemoryTable.Library.Program
import InMemoryTable.Table

/-! The part of the operating system that outlives a process: shared memory
objects, found by name, and semaphore sets, found by key. A file descriptor and a
mapping are the object they refer to. -/
namespace InMemoryTable

/-- What the system sees of a name: `shm_open` and `shm_unlink` drop leading slashes. -/
structure ShmName where
  text : String
  relative : text.toList.head? ≠ some '/'
  deriving DecidableEq

def ShmName.ofString (name : String) : ShmName where
  text := .ofList (name.toList.dropWhile (· == '/'))
  relative := by
    rw [String.toList_ofList]
    intro first
    have dropped := List.head?_dropWhile_not (· == '/') name.toList
    simp [first] at dropped

instance : Coe String ShmName := ⟨.ofString⟩

/-- A shared memory object. The views of its bytes as a data block and as an
index block are kept side by side: no object is used both ways. -/
structure ShmObject (B : Type) where
  size : Nat
  memory : TableMemory B

structure SemSet where
  size : Nat
  values : Semaphores

/-- Ids are given in ascending order and never again. -/
@[ext] structure Kernel (B : Type) where
  names : ShmName → Option Nat
  objects : Nat → ShmObject B
  nextObject : Nat
  keys : Int32 → Option Nat
  sets : Nat → Option SemSet
  nextSet : Nat
  allocated : ∀ {name object}, names name = some object → object < nextObject
  live : ∀ {key semId}, keys key = some semId → (sets semId).isSome
  unused : ∀ {semId}, nextSet ≤ semId → sets semId = none

/-- What the code learns of the platform: the limit on the size of a semaphore
set (at most 65535 by the kernel headers), the page at which an object is mapped,
how zeroed memory reads as slots, and the texts of the error numbers. -/
structure Platform (B : Type) where
  semmsl : Nat
  semmsl_le : semmsl ≤ 65535
  page : Nat → Nat
  zeroSlot : Nat → Slot UInt8
  zeroNode : Nat → Slot B
  nixText : Errno → String
  osText : Errno → String

/-- A platform with the default limit on semaphore sets. -/
def Platform.sample : Platform (Node UInt8) where
  semmsl := 32000
  semmsl_le := by decide
  page object := object + 1
  zeroSlot _ := ⟨.free, 0, [0]⟩
  zeroNode _ := ⟨.free, 0, []⟩
  nixText _ := ""
  osText _ := ""

/-- The calls to the operating system and the accesses to mapped memory, each
of them one atomic step. `semop` stands for operation +1. -/
inductive Action where
  | shmOpenNew (name : String)
  | shmOpen (name : String)
  | ftruncate (fd length : Nat)
  | fstat (fd : Nat)
  | mmap (fd length : Nat)
  | shmUnlink (name : String)
  | semgetNew (key : Int32) (nsems : Int)
  | semget (key : Int32) (nsems : Int)
  | semop (semId semNum : Nat)
  | semctlRmid (semId : Nat)
  | writeBytes (fd length : Nat)
  | writeHeader (fd : Nat) (header : TableHeader)
  | slotsNew (fd capacity dataSize : Nat)
  | indexSlotsNew (fd capacity dataSize : Nat)
  | isValid (fd : Nat)
  | readCapacity (fd : Nat)
  deriving DecidableEq

abbrev Action.Reply : Action → Type
  | shmOpenNew _ | shmOpen _ | fstat _ | mmap _ _ | semgetNew _ _ | semget _ _ => Except Errno Nat
  | ftruncate _ _ | shmUnlink _ | semop _ _ | semctlRmid _ => Except Errno Unit
  | writeBytes _ _ | writeHeader _ _ | slotsNew _ _ _ | indexSlotsNew _ _ _ => Unit
  | isValid _ => Bool
  | readCapacity _ => Nat

def pageSize : Nat := 4096

/-- `length as i64` -/
def asI64 (length : Nat) : Int := (BitVec.ofNat 64 length).toInt

/-- `stripes as i32` -/
def asI32 (stripes : Nat) : Int := (BitVec.ofNat 32 stripes).toInt

variable {B : Type} (platform : Platform B)

/-- The contents of a block filled with zeros. -/
def Platform.zeroMemory : TableMemory B :=
  let header : SlotsHeader := { capacity := 0, count := 0, slotSize := 0, firstFree := 0 }
  { header := { magic := List.replicate 6 0, capacity := 0 }
    slots := { header, slot := platform.zeroSlot }
    index := { buckets := fun _ => ⟨0⟩, slots := { header, slot := platform.zeroNode } } }

namespace Kernel
variable (kernel : Kernel B)

/-- Nothing has been created yet. -/
def empty : Kernel B where
  names _ := none
  objects _ := ⟨0, platform.zeroMemory⟩
  nextObject := 0
  keys _ := none
  sets _ := none
  nextSet := 0
  allocated named := by simp at named
  live keyed := by simp at keyed
  unused _ := rfl

/-- The names, keys and semaphore sets that exist. -/
def existing : (ShmName → Option Nat) × (Int32 → Option Nat) × (Nat → Option SemSet) :=
  (kernel.names, kernel.keys, kernel.sets)

def createObject (name : ShmName) : Kernel B :=
  { kernel with
    names := Function.update kernel.names name (some kernel.nextObject)
    objects := Function.update kernel.objects kernel.nextObject ⟨0, platform.zeroMemory⟩
    nextObject := kernel.nextObject + 1
    allocated := by
      intro other object named
      by_cases same : other = name
      · subst same
        simp only [Function.update_self, Option.some.injEq] at named
        omega
      · rw [Function.update_of_ne same] at named
        exact Nat.lt_succ_of_lt (kernel.allocated named) }

def removeName (name : ShmName) : Kernel B :=
  { kernel with
    names := Function.update kernel.names name none
    allocated := by
      intro other object named
      by_cases same : other = name
      · subst same
        simp at named
      · rw [Function.update_of_ne same] at named
        exact kernel.allocated named }

def setObject (fd : Nat) (object : ShmObject B) : Kernel B :=
  { kernel with objects := Function.update kernel.objects fd object }

def setMemory (fd : Nat) (memory : TableMemory B) : Kernel B :=
  kernel.setObject fd { kernel.objects fd with memory }

def createSet (key : Int32) (set : SemSet) : Kernel B :=
  { kernel with
    keys := Function.update kernel.keys key (some kernel.nextSet)
    sets := Function.update kernel.sets kernel.nextSet (some set)
    nextSet := kernel.nextSet + 1
    live := by
      intro other semId keyed
      by_cases fresh : semId = kernel.nextSet
      · simp [fresh]
      · rw [Function.update_of_ne fresh]
        by_cases same : other = key
        · subst same
          simp only [Function.update_self, Option.some.injEq] at keyed
          exact absurd keyed.symm fresh
        · rw [Function.update_of_ne same] at keyed
          exact kernel.live keyed
    unused := by
      intro semId later
      rw [Function.update_of_ne (by omega)]
      exact kernel.unused (by omega) }

def setValues (semId : Nat) (set : SemSet) (exists_set : kernel.sets semId = some set)
    (values : Semaphores) : Kernel B :=
  { kernel with
    sets := Function.update kernel.sets semId (some { set with values })
    live := by
      intro key other keyed
      by_cases same : other = semId
      · simp [same]
      · rw [Function.update_of_ne same]
        exact kernel.live keyed
    unused := by
      intro other later
      by_cases same : other = semId
      · subst same
        rw [kernel.unused later] at exists_set
        contradiction
      · rw [Function.update_of_ne same]
        exact kernel.unused later }

def removeSet (semId : Nat) : Kernel B :=
  { kernel with
    keys := fun key => if kernel.keys key = some semId then none else kernel.keys key
    sets := Function.update kernel.sets semId none
    live := by
      intro key other keyed
      split at keyed
      · contradiction
      · rename_i different
        have apart : other ≠ semId := by
          rintro rfl
          exact different keyed
        rw [Function.update_of_ne apart]
        exact kernel.live keyed
    unused := by
      intro other later
      by_cases same : other = semId
      · simp [same]
      · rw [Function.update_of_ne same]
        exact kernel.unused later }

/-! ### What the changes leave alone -/

@[simp] theorem createObject_names (name : ShmName) :
    (kernel.createObject platform name).names =
      Function.update kernel.names name (some kernel.nextObject) := rfl

@[simp] theorem createObject_objects (name : ShmName) :
    (kernel.createObject platform name).objects =
      Function.update kernel.objects kernel.nextObject ⟨0, platform.zeroMemory⟩ := rfl

@[simp] theorem createObject_nextObject (name : ShmName) :
    (kernel.createObject platform name).nextObject = kernel.nextObject + 1 := rfl

@[simp] theorem createObject_keys (name : ShmName) :
    (kernel.createObject platform name).keys = kernel.keys := rfl

@[simp] theorem createObject_sets (name : ShmName) :
    (kernel.createObject platform name).sets = kernel.sets := rfl

@[simp] theorem createObject_nextSet (name : ShmName) :
    (kernel.createObject platform name).nextSet = kernel.nextSet := rfl

section SetObject
variable (fd : Nat) (object : ShmObject B)

@[simp] theorem setObject_names : (kernel.setObject fd object).names = kernel.names := rfl

@[simp] theorem setObject_objects :
    (kernel.setObject fd object).objects = Function.update kernel.objects fd object := rfl

@[simp] theorem setObject_nextObject :
    (kernel.setObject fd object).nextObject = kernel.nextObject := rfl

@[simp] theorem setObject_keys : (kernel.setObject fd object).keys = kernel.keys := rfl

@[simp] theorem setObject_sets : (kernel.setObject fd object).sets = kernel.sets := rfl

@[simp] theorem setObject_nextSet : (kernel.setObject fd object).nextSet = kernel.nextSet := rfl

@[simp] theorem setObject_existing : (kernel.setObject fd object).existing = kernel.existing := rfl

@[simp] theorem setObject_removeName (name : ShmName) :
    ((kernel.setObject fd object).removeName name).existing = (kernel.removeName name).existing :=
  rfl

@[simp] theorem setObject_setMemory (memory : TableMemory B) :
    (kernel.setObject fd object).setMemory fd memory =
      kernel.setObject fd { object with memory } := by
  ext1 <;> simp [setMemory, setObject]

end SetObject

section CreateSet
variable (key : Int32) (set : SemSet)

@[simp] theorem createSet_names : (kernel.createSet key set).names = kernel.names := rfl

@[simp] theorem createSet_objects : (kernel.createSet key set).objects = kernel.objects := rfl

@[simp] theorem createSet_nextObject :
    (kernel.createSet key set).nextObject = kernel.nextObject := rfl

@[simp] theorem createSet_keys :
    (kernel.createSet key set).keys = Function.update kernel.keys key (some kernel.nextSet) := rfl

@[simp] theorem createSet_sets :
    (kernel.createSet key set).sets = Function.update kernel.sets kernel.nextSet (some set) := rfl

@[simp] theorem createSet_nextSet : (kernel.createSet key set).nextSet = kernel.nextSet + 1 := rfl

@[simp] theorem createSet_setValues {found : SemSet}
    (exists_set : (kernel.createSet key set).sets kernel.nextSet = some found)
    (values : Semaphores) :
    (kernel.createSet key set).setValues kernel.nextSet found exists_set values =
      kernel.createSet key { found with values } := by
  ext1 <;> simp [setValues, createSet]

end CreateSet

/-- A new object whose name is removed again. -/
theorem removeName_createObject {name : ShmName} (free : kernel.names name = none) :
    ((kernel.createObject platform name).removeName name).existing = kernel.existing := by
  have names : Function.update kernel.names name none = kernel.names :=
    Function.update_eq_self_iff.mpr free.symm
  simp [existing, removeName, createObject, names]

theorem keys_ne_nextSet (key : Int32) : kernel.keys key ≠ some kernel.nextSet := by
  intro keyed
  simpa [kernel.unused (Nat.le_refl _)] using kernel.live keyed

/-- A new semaphore set that is removed again. -/
theorem removeSet_createSet {key : Int32} (free : kernel.keys key = none) (set : SemSet) :
    ((kernel.createSet key set).removeSet kernel.nextSet).existing = kernel.existing := by
  have keys : ((kernel.createSet key set).removeSet kernel.nextSet).keys = kernel.keys := by
    funext other
    by_cases same : other = key
    · subst same
      simp [removeSet, createSet, free]
    · simp [removeSet, createSet, Function.update_of_ne same, kernel.keys_ne_nextSet other]
  have sets : Function.update kernel.sets kernel.nextSet none = kernel.sets :=
    Function.update_eq_self_iff.mpr (kernel.unused (Nat.le_refl _)).symm
  rw [existing, keys]
  simp [existing, removeSet, createSet, sets]

/-! ### The calls -/

/-- A call that fails for a reason outside the model leaves everything as it was. -/
def orFault {α : Type} (fault : Option Errno) (done : Except Errno α × Kernel B) :
    Except Errno α × Kernel B :=
  match fault with
  | some errno => (.error errno, kernel)
  | none => done

def shmOpenNew (name : String) : Except Errno Nat × Kernel B :=
  match kernel.names name with
  | some _ => (.error .eexist, kernel)
  | none => (.ok kernel.nextObject, kernel.createObject platform name)

def shmOpen (name : String) : Except Errno Nat × Kernel B :=
  match kernel.names name with
  | some object => (.ok object, kernel)
  | none => (.error .enoent, kernel)

def ftruncate (fd length : Nat) : Except Errno Unit × Kernel B :=
  if asI64 length < 0 then (.error .einval, kernel)
  else (.ok (), kernel.setObject fd { kernel.objects fd with size := length })

def mmap (fd length : Nat) : Except Errno Nat × Kernel B :=
  if length = 0 then (.error .einval, kernel) else (.ok (pageSize * platform.page fd), kernel)

def shmUnlink (name : String) : Except Errno Unit × Kernel B :=
  match kernel.names name with
  | some _ => (.ok (), kernel.removeName name)
  | none => (.error .enoent, kernel)

/-- `semget` with `IPC_CREAT | IPC_EXCL`; the semaphores of a new set are zero. -/
def semgetNew (key : Int32) (nsems : Int) : Except Errno Nat × Kernel B :=
  if nsems < 0 ∨ platform.semmsl < nsems then (.error .einval, kernel)
  else
    match kernel.keys key with
    | some _ => (.error .eexist, kernel)
    | none =>
      if nsems = 0 then (.error .einval, kernel)
      else (.ok kernel.nextSet, kernel.createSet key ⟨nsems.toNat, fun _ => 0⟩)

def semget (key : Int32) (nsems : Int) : Except Errno Nat × Kernel B :=
  if nsems < 0 ∨ platform.semmsl < nsems then (.error .einval, kernel)
  else
    match kernel.keys key with
    | none => (.error .enoent, kernel)
    | some semId =>
      match kernel.sets semId with
      | none => (.error .enoent, kernel)
      | some set =>
        if set.size < nsems then (.error .einval, kernel) else (.ok semId, kernel)

def semop (semId semNum : Nat) : Except Errno Unit × Kernel B :=
  match exists_set : kernel.sets semId with
  | none => (.error .einval, kernel)
  | some set =>
    if semNum < set.size then
      (.ok (), kernel.setValues semId set exists_set (set.values.unlock semNum))
    else (.error .efbig, kernel)

def semctlRmid (semId : Nat) : Except Errno Unit × Kernel B :=
  match kernel.sets semId with
  | none => (.error .einval, kernel)
  | some _ => (.ok (), kernel.removeSet semId)

end Kernel

/-- `semgetNew` fails, or the key was free and the size is within the limits. -/
theorem Kernel.semgetNew_cases (kernel : Kernel B) (key : Int32) (nsems : Int) :
    (∃ errno, kernel.semgetNew platform key nsems = (.error errno, kernel)) ∨
      ∃ size : Nat, nsems = size ∧ 0 < size ∧ size ≤ platform.semmsl ∧ kernel.keys key = none ∧
        kernel.semgetNew platform key nsems =
          (.ok kernel.nextSet, kernel.createSet key ⟨size, fun _ => 0⟩) := by
  rw [semgetNew]
  by_cases outside : nsems < 0 ∨ platform.semmsl < nsems
  · exact .inl ⟨.einval, if_pos outside⟩
  rw [if_neg outside]
  cases free : kernel.keys key with
  | some semId => exact .inl ⟨.eexist, rfl⟩
  | none =>
    by_cases zero : nsems = 0
    · exact .inl ⟨.einval, if_pos zero⟩
    · exact .inr ⟨nsems.toNat, by omega, by omega, by omega, rfl, if_neg zero⟩

/-- `semget` fails, or it finds the set with that key. -/
theorem Kernel.semget_cases (kernel : Kernel B) (key : Int32) (nsems : Int) :
    (∃ errno, kernel.semget platform key nsems = (.error errno, kernel)) ∨
      ∃ semId, kernel.keys key = some semId ∧
        kernel.semget platform key nsems = (.ok semId, kernel) := by
  rw [semget]
  split
  · exact .inl ⟨_, rfl⟩
  split
  · exact .inl ⟨_, rfl⟩
  rename_i semId keyed
  split
  · exact .inl ⟨_, rfl⟩
  split
  · exact .inl ⟨_, rfl⟩
  · exact .inr ⟨semId, keyed, rfl⟩

/-- The new set is there for its creator. -/
theorem Kernel.createSet_semop (kernel : Kernel B) (key : Int32) (set : SemSet) (semNum : Nat) :
    (kernel.createSet key set).semop kernel.nextSet semNum =
      if semNum < set.size then
        (.ok (), kernel.createSet key { set with values := set.values.unlock semNum })
      else (.error .efbig, kernel.createSet key set) := by
  unfold Kernel.semop
  split
  · simp_all
  · rename_i found exists_set
    have same : found = set := by simpa using exists_set.symm
    subst same
    simp only [Kernel.createSet_setValues]

/-- `faults` chooses the calls that fail for a reason outside the model. -/
def Platform.exec (faults : Action → Option Errno) (kernel : Kernel B) (action : Action) :
    action.Reply × Kernel B :=
  match action with
  | .shmOpenNew name =>
    kernel.orFault (faults (.shmOpenNew name)) (kernel.shmOpenNew platform name)
  | .shmOpen name => kernel.orFault (faults (.shmOpen name)) (kernel.shmOpen name)
  | .ftruncate fd length =>
    kernel.orFault (faults (.ftruncate fd length)) (kernel.ftruncate fd length)
  | .fstat fd => kernel.orFault (faults (.fstat fd)) (.ok (kernel.objects fd).size, kernel)
  | .mmap fd length => kernel.orFault (faults (.mmap fd length)) (kernel.mmap platform fd length)
  | .shmUnlink name => kernel.shmUnlink name
  | .semgetNew key nsems =>
    kernel.orFault (faults (.semgetNew key nsems)) (kernel.semgetNew platform key nsems)
  | .semget key nsems =>
    kernel.orFault (faults (.semget key nsems)) (kernel.semget platform key nsems)
  | .semop semId semNum => kernel.orFault (faults (.semop semId semNum)) (kernel.semop semId semNum)
  | .semctlRmid semId => kernel.semctlRmid semId
  | .writeBytes fd _ => ((), kernel.setMemory fd platform.zeroMemory)
  | .writeHeader fd header =>
    ((), kernel.setMemory fd { (kernel.objects fd).memory with header })
  | .slotsNew fd capacity dataSize =>
    let memory := (kernel.objects fd).memory
    ((), kernel.setMemory fd
      { memory with slots := .new memory.slots.slot capacity dataSize })
  | .indexSlotsNew fd capacity dataSize =>
    let memory := (kernel.objects fd).memory
    ((), kernel.setMemory fd { memory with index :=
      { memory.index with slots := .new memory.index.slots.slot capacity dataSize } })
  | .isValid fd => ((kernel.objects fd).memory.header.isValid, kernel)
  | .readCapacity fd => ((kernel.objects fd).memory.header.capacity, kernel)

/-- `exec` with removals that may fail as well. -/
def Platform.attempt (faults : Action → Option Errno) (kernel : Kernel B) :
    (action : Action) → action.Reply × Kernel B
  | .shmUnlink name => kernel.orFault (faults (.shmUnlink name)) (kernel.shmUnlink name)
  | .semctlRmid semId => kernel.orFault (faults (.semctlRmid semId)) (kernel.semctlRmid semId)
  | action => platform.exec faults kernel action

section Faultless
variable {platform} {faults : Action → Option Errno} {kernel : Kernel B}

theorem exec_ftruncate {fd length : Nat} (fault : faults (.ftruncate fd length) = none) :
    platform.exec faults kernel (.ftruncate fd length) = kernel.ftruncate fd length := by
  simp only [Platform.exec, fault, Kernel.orFault]

theorem exec_mmap {fd length : Nat} (fault : faults (.mmap fd length) = none) :
    platform.exec faults kernel (.mmap fd length) = kernel.mmap platform fd length := by
  simp only [Platform.exec, fault, Kernel.orFault]

theorem exec_semgetNew {key : Int32} {nsems : Int} (fault : faults (.semgetNew key nsems) = none) :
    platform.exec faults kernel (.semgetNew key nsems) = kernel.semgetNew platform key nsems := by
  simp only [Platform.exec, fault, Kernel.orFault]

theorem exec_semget {key : Int32} {nsems : Int} (fault : faults (.semget key nsems) = none) :
    platform.exec faults kernel (.semget key nsems) = kernel.semget platform key nsems := by
  simp only [Platform.exec, fault, Kernel.orFault]

theorem exec_semop {semId semNum : Nat} (fault : faults (.semop semId semNum) = none) :
    platform.exec faults kernel (.semop semId semNum) = kernel.semop semId semNum := by
  simp only [Platform.exec, fault, Kernel.orFault]

end Faultless
end InMemoryTable
