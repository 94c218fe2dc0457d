import InMemoryTable.Lifecycle

/-! The constructors run alone: when each of them succeeds, what it leaves in the
kernel then, and what is left of it when it fails. -/
namespace InMemoryTable
open Program

variable {K B : Type} {platform : Platform B} {faults : Action → Option Errno} {kernel : Kernel B}

namespace Kernel

/-- The kernel with a new block. -/
def withBlock (platform : Platform B) (kernel : Kernel B) (name : ShmName)
    (object : ShmObject B) : Kernel B :=
  (kernel.createObject platform name).setObject kernel.nextObject object

theorem withBlock_setMemory (platform : Platform B) (kernel : Kernel B) (name : ShmName)
    (object : ShmObject B) (memory : TableMemory B) :
    (kernel.withBlock platform name object).setMemory kernel.nextObject memory =
      kernel.withBlock platform name { object with memory } :=
  setObject_setMemory ..

@[simp] theorem withBlock_object (platform : Platform B) (kernel : Kernel B) (name : ShmName)
    (object : ShmObject B) :
    (kernel.withBlock platform name object).objects kernel.nextObject = object := by
  simp [withBlock]

end Kernel

namespace Block

/-- Nothing but an object of that name stands in the way of a new block. -/
structure Granted (faults : Action → Option Errno) (fd : Nat) (name : String) (totalSize : Nat) :
    Prop where
  noNul : Char.ofNat 0 ∉ name.toList
  opens : faults (.shmOpenNew name) = none
  truncates : faults (.ftruncate fd totalSize) = none
  signed : 0 ≤ asI64 totalSize
  maps : faults (.mmap fd totalSize) = none
  nonempty : totalSize ≠ 0

variable {name : String} {totalSize : Nat}

theorem new_ok (free : kernel.names name = none)
    (granted : Granted faults kernel.nextObject name totalSize) :
    (Block.new platform name totalSize).program.run (platform.exec faults) kernel =
      (.ok ⟨name, pageSize * platform.page kernel.nextObject, totalSize, kernel.nextObject⟩,
        kernel.withBlock platform name ⟨totalSize, platform.zeroMemory⟩) := by
  obtain ⟨noNul, opens, truncates, signed, maps, nonempty⟩ := granted
  rw [Block.new, run_ofExcept _ (show cString name = .ok name by simp [cString, noNul])]
  simp [Platform.exec, opens, Kernel.orFault, Kernel.shmOpenNew, free, truncates,
    Kernel.ftruncate, mmapOpen, Int.not_lt.mpr signed, maps, Kernel.mmap, nonempty,
    Kernel.withBlock]

theorem new_error (platform : Platform B)
    (refused : ¬ (kernel.names name = none ∧ Granted faults kernel.nextObject name totalSize)) :
    ∃ e after, (Block.new platform name totalSize).program.run (platform.exec faults) kernel =
      (.error e, after) ∧ after.existing = kernel.existing := by
  by_cases noNul : Char.ofNat 0 ∈ name.toList
  · have invalid : (ofExcept (cString name) : Call String).program.run (platform.exec faults)
        kernel = (.error (.invalidName name), kernel) := by
      simp [cString, noNul, Program.ofExcept, Program.run]
    rw [Block.new, run_error _ invalid]
    exact ⟨_, _, rfl, rfl⟩
  rw [Block.new, run_ofExcept _ (show cString name = .ok name by simp [cString, noNul])]
  cases opens : faults (.shmOpenNew name) with
  | some errno => simp [Platform.exec, opens, Kernel.orFault]
  | none =>
    cases free : kernel.names name with
    | some object => simp [Platform.exec, opens, Kernel.orFault, Kernel.shmOpenNew, free]
    | none =>
      cases truncates : faults (.ftruncate kernel.nextObject totalSize) with
      | some errno =>
        simp [Platform.exec, opens, Kernel.orFault, Kernel.shmOpenNew, free, truncates,
          Kernel.shmUnlink, Kernel.removeName_createObject platform kernel free]
      | none =>
        by_cases signed : asI64 totalSize < 0
        · simp [Platform.exec, opens, Kernel.orFault, Kernel.shmOpenNew, free, truncates,
            Kernel.ftruncate, signed, Kernel.shmUnlink,
            Kernel.removeName_createObject platform kernel free]
        cases maps : faults (.mmap kernel.nextObject totalSize) with
        | some errno =>
          simp [Platform.exec, opens, Kernel.orFault, Kernel.shmOpenNew, free, truncates,
            Kernel.ftruncate, signed, mmapOpen, maps, Kernel.shmUnlink,
            Kernel.removeName_createObject platform kernel free]
        | none =>
          by_cases nonempty : totalSize = 0
          · subst nonempty
            simp [Platform.exec, opens, Kernel.orFault, Kernel.shmOpenNew, free, truncates,
              Kernel.ftruncate, signed, mmapOpen, maps, Kernel.mmap, Kernel.shmUnlink,
              Kernel.removeName_createObject platform kernel free]
          · exact absurd ⟨free, noNul, opens, truncates, Int.not_lt.mp signed, maps, nonempty⟩
              refused

end Block

namespace SemaphoreSet

/-- Nothing but a set with that key stands in the way of a new set. -/
structure Granted (platform : Platform B) (faults : Action → Option Errno) (semId : Nat)
    (name : String) (numRecords : Nat) : Prop where
  fits : stripesFor numRecords ≤ platform.semmsl
  gets : faults (.semgetNew (generateSemKey name) (asI32 (stripesFor numRecords))) = none
  resets : ∀ position < stripesFor numRecords, faults (.semop semId (asU16 position)) = none

theorem stripesFor_pos (numRecords : Nat) : 0 < stripesFor numRecords := Nat.succ_pos _

theorem asI32_of_le {stripes : Nat} (small : stripes ≤ 65535) : asI32 stripes = stripes := by
  rw [asI32, BitVec.toInt_ofNat', Int.bmod_eq_of_le] <;> omega

theorem asU16_of_lt {position : Nat} (small : position < 65536) : asU16 position = position :=
  Nat.mod_eq_of_lt small

/-- The values of a set whose first `position` semaphores have been reset. -/
def resetUpTo (position : Nat) : Semaphores := fun semNum => if semNum < position then 1 else 0

theorem resetUpTo_zero : resetUpTo 0 = fun _ => 0 := by
  funext semNum
  simp [resetUpTo]

theorem unlock_resetUpTo (position : Nat) :
    (resetUpTo position).unlock position = resetUpTo (position + 1) := by
  funext semNum
  by_cases same : semNum = position
  · subst same
    simp [Semaphores.unlock, resetUpTo]
  · rw [Semaphores.unlock, Function.update_of_ne same]
    simp only [resetUpTo]
    split <;> split <;> omega

variable {name : String} {key : Int32} {numRecords : Nat}

/-- From any position on, all semaphores are reset one by one. -/
theorem semReset_ok (kernel : Kernel B) (key : Int32) {size : Nat} (small : size ≤ 65535)
    (faultless : ∀ p < size, faults (.semop kernel.nextSet (asU16 p)) = none)
    (remaining position : Nat) (inside : position + remaining = size) :
    (semReset kernel.nextSet size position remaining).program.run (platform.exec faults)
        (kernel.createSet key ⟨size, resetUpTo position⟩) =
      (.ok (), kernel.createSet key ⟨size, resetUpTo size⟩) := by
  induction remaining generalizing position with
  | zero =>
    obtain rfl : position = size := by omega
    rfl
  | succ remaining ih =>
    have number : asU16 position = position := asU16_of_lt (by omega)
    have fault := faultless position (by omega)
    have valid : position < size := by omega
    have reset : platform.exec faults (kernel.createSet key ⟨size, resetUpTo position⟩)
        (.semop kernel.nextSet (asU16 position)) =
          (.ok (), kernel.createSet key ⟨size, resetUpTo (position + 1)⟩) := by
      rw [number] at fault ⊢
      simp only [Platform.exec, fault, Kernel.orFault, Kernel.createSet_semop, valid, if_true,
        unlock_resetUpTo]
    rw [semReset, run_reply _ reset]
    exact ih (position + 1) (by omega)

/-- If some semaphore cannot be reset the set is removed again. -/
theorem semReset_error (free : kernel.keys key = none) (size : Nat) (remaining position : Nat)
    (set : SemSet) (refused : ∃ p, position ≤ p ∧ p < position + remaining ∧
      (faults (.semop kernel.nextSet (asU16 p)) ≠ none ∨ set.size ≤ asU16 p)) :
    ∃ e after, (semReset kernel.nextSet size position remaining).program.run
        (platform.exec faults) (kernel.createSet key set) = (.error e, after) ∧
      after.existing = kernel.existing := by
  have restored := kernel.removeSet_createSet free
  induction remaining generalizing position set with
  | zero =>
    obtain ⟨p, lower, upper, -⟩ := refused
    omega
  | succ remaining ih =>
    simp only [semReset, run_perform, Platform.exec]
    cases fault : faults (.semop kernel.nextSet (asU16 position)) with
    | some errno => simp [Kernel.orFault, Platform.exec, Kernel.semctlRmid, restored]
    | none =>
      simp only [Kernel.orFault, Kernel.createSet_semop]
      by_cases valid : asU16 position < set.size
      · simp only [valid, if_true]
        apply ih
        obtain ⟨p, lower, upper, failing⟩ := refused
        refine ⟨p, ?_, by omega, failing⟩
        by_contra reached
        obtain rfl : p = position := by omega
        rcases failing with failing | outside
        · exact failing fault
        · omega
      · simp [valid, Platform.exec, Kernel.semctlRmid, restored]

/-- The number of semaphores may be cut to 32 bits: then the first one beyond
the end of the set is refused. -/
theorem some_reset_fails {semId : Nat} (size : Nat) (bounded : size ≤ platform.semmsl)
    (refused : ¬ (stripesFor numRecords ≤ platform.semmsl ∧
      ∀ p < stripesFor numRecords, faults (.semop semId (asU16 p)) = none)) :
    ∃ p < stripesFor numRecords, faults (.semop semId (asU16 p)) ≠ none ∨ size ≤ asU16 p := by
  by_cases fits : stripesFor numRecords ≤ platform.semmsl
  · have failing : ¬ ∀ p < stripesFor numRecords, faults (.semop semId (asU16 p)) = none :=
      fun all => refused ⟨fits, all⟩
    simp only [not_forall] at failing
    obtain ⟨p, inside, failing⟩ := failing
    exact ⟨p, inside, .inl failing⟩
  · have small := platform.semmsl_le
    refine ⟨size, by omega, .inr ?_⟩
    rw [asU16_of_lt (by omega)]

theorem create_ok (free : kernel.keys (generateSemKey name) = none)
    (granted : Granted platform faults kernel.nextSet name numRecords) :
    (create platform name numRecords).program.run (platform.exec faults) kernel =
      (.ok (ofRecords kernel.nextSet numRecords),
        kernel.createSet (generateSemKey name)
          ⟨stripesFor numRecords, resetUpTo (stripesFor numRecords)⟩) := by
  obtain ⟨fits, gets, resets⟩ := granted
  have small := fits.trans platform.semmsl_le
  have positive := stripesFor_pos numRecords
  have gotten : platform.exec faults kernel
      (.semgetNew (generateSemKey name) (asI32 (stripesFor numRecords))) =
        (.ok kernel.nextSet,
          kernel.createSet (generateSemKey name) ⟨stripesFor numRecords, resetUpTo 0⟩) := by
    rw [exec_semgetNew gets, asI32_of_le small, Kernel.semgetNew, if_neg (by omega), free,
      resetUpTo_zero]
    simp only [Int.toNat_natCast]
    exact if_neg (by omega)
  rw [create, run_reply _ gotten]
  rw [run_ok _ (semReset_ok kernel _ small resets (stripesFor numRecords) 0 (by omega))]
  rfl

theorem create_error (kernel : Kernel B)
    (refused : ¬ (kernel.keys (generateSemKey name) = none ∧
      Granted platform faults kernel.nextSet name numRecords)) :
    ∃ e after, (create platform name numRecords).program.run (platform.exec faults) kernel =
      (.error e, after) ∧ after.existing = kernel.existing := by
  have gets : (∃ errno, platform.exec faults kernel
      (.semgetNew (generateSemKey name) (asI32 (stripesFor numRecords))) = (.error errno, kernel)) ∨
      (faults (.semgetNew (generateSemKey name) (asI32 (stripesFor numRecords))) = none) := by
    cases fault : faults (.semgetNew (generateSemKey name) (asI32 (stripesFor numRecords))) with
    | some errno => exact .inl ⟨errno, by simp only [Platform.exec, fault, Kernel.orFault]⟩
    | none => exact .inr rfl
  have failed : ∀ errno, platform.exec faults kernel
      (.semgetNew (generateSemKey name) (asI32 (stripesFor numRecords))) = (.error errno, kernel) →
      ∃ e after, (create platform name numRecords).program.run (platform.exec faults) kernel =
        (.error e, after) ∧ after.existing = kernel.existing := by
    intro errno failing
    rw [create, run_reply _ failing]
    exact ⟨_, _, rfl, rfl⟩
  rcases gets with ⟨errno, failing⟩ | gets
  · exact failed errno failing
  have same : platform.exec faults kernel
      (.semgetNew (generateSemKey name) (asI32 (stripesFor numRecords))) = _ := exec_semgetNew gets
  obtain ⟨errno, failing⟩ | ⟨size, -, positive, bounded, free, gotten⟩ :=
    kernel.semgetNew_cases platform (generateSemKey name) (asI32 (stripesFor numRecords))
  · exact failed errno (same.trans failing)
  · obtain ⟨p, inside, failing⟩ := some_reset_fails size bounded
      (fun granted => refused ⟨free, granted.1, gets, granted.2⟩)
    obtain ⟨e, after, ran, restored⟩ := semReset_error free (stripesFor numRecords)
      (stripesFor numRecords) 0 ⟨size, fun _ => 0⟩ ⟨p, p.zero_le, by omega, failing⟩
    rw [create, run_reply _ (same.trans gotten), run_error _ ran]
    exact ⟨e, after, rfl, restored⟩

end SemaphoreSet

theorem checkAligned_page (page : Nat) : checkAligned (pageSize * page) headerAlignment = .ok () :=
  if_pos (by simp only [pageSize, headerAlignment]; omega)

theorem checkAligned_slots (page : Nat) :
    checkAligned (Header.data (pageSize * page) tableHeaderSize) headerAlignment = .ok () :=
  if_pos (by simp only [pageSize, headerAlignment, Header.data, tableHeaderSize]; omega)

theorem checkAligned_nodes (page size : Nat) :
    checkAligned (pageSize * page + Index.totalBucketsSize size) headerAlignment = .ok () :=
  if_pos (by
    simp only [pageSize, headerAlignment, Index.totalBucketsSize, wrappingMul, bucketSize,
      usizeModulus]
    omega)

/-- The contents of a new index block. -/
def Platform.indexMemory (platform : Platform B) (size nodeSize : Nat) : TableMemory B :=
  { platform.zeroMemory with
    index := { platform.zeroMemory.index with slots := .new platform.zeroNode size nodeSize } }

/-- The contents of a new data block. -/
def Platform.dataMemory (platform : Platform B) (capacity recordSize : Nat) : TableMemory B :=
  { platform.zeroMemory with
    header := .new capacity
    slots := .new platform.zeroSlot capacity recordSize }

namespace SharedIndex
variable {layout : NodeLayout K B} {hasher : K → Nat} {name : String} {size : Nat}

/-- The index block of a new table is accepted. -/
def BlockGranted (faults : Action → Option Errno) (layout : NodeLayout K B) (fd : Nat)
    (name : String) (size : Nat) : Prop :=
  Block.Granted faults fd (indexName name) (Index.totalSize size layout.size)

def withBlock (platform : Platform B) (layout : NodeLayout K B) (name : String) (size : Nat)
    (kernel : Kernel B) : Kernel B :=
  kernel.withBlock platform (indexName name)
    ⟨Index.totalSize size layout.size, platform.indexMemory size layout.size⟩

def handle (platform : Platform B) (layout : NodeLayout K B) (hasher : K → Nat) (name : String)
    (size object semId : Nat) : SharedIndex K B :=
  { block := ⟨indexName name, pageSize * platform.page object,
      Index.totalSize size layout.size, object⟩
    index := .handle layout hasher size
    semaphores := .ofRecords semId 0 }

/-- What is left to do once the block is there. -/
theorem new_block (free : kernel.names (indexName name) = none)
    (granted : BlockGranted faults layout kernel.nextObject name size) :
    (new platform layout hasher name size).program.run (platform.exec faults) kernel =
      (do
        let semaphores ← SemaphoreSet.create platform (indexName name) 0
        let block : Block := ⟨indexName name, pageSize * platform.page kernel.nextObject,
          Index.totalSize size layout.size, kernel.nextObject⟩
        pure { block, index := Index.handle layout hasher size, semaphores }
          : Call (SharedIndex K B)).program.run
        (platform.exec faults) (withBlock platform layout name size kernel) := by
  have slots : platform.exec faults
      (kernel.withBlock platform (indexName name)
        ⟨Index.totalSize size layout.size, platform.zeroMemory⟩)
      (.indexSlotsNew kernel.nextObject size layout.size) =
        ((), withBlock platform layout name size kernel) := by
    simp only [Platform.exec, Kernel.withBlock_object, Kernel.withBlock_setMemory]
    rfl
  rw [new, run_ok _ (Block.new_ok free granted), run_ofExcept _ (checkAligned_page _),
    run_ofExcept _ (checkAligned_nodes _ _), run_reply _ slots]

theorem new_ok (free : kernel.names (indexName name) = none)
    (keyFree : kernel.keys (SemaphoreSet.generateSemKey (indexName name)) = none)
    (block : BlockGranted faults layout kernel.nextObject name size)
    (semaphores : SemaphoreSet.Granted platform faults kernel.nextSet (indexName name) 0) :
    (new platform layout hasher name size).program.run (platform.exec faults) kernel =
      (.ok (handle platform layout hasher name size kernel.nextObject kernel.nextSet),
        (withBlock platform layout name size kernel).createSet
          (SemaphoreSet.generateSemKey (indexName name)) ⟨1, SemaphoreSet.resetUpTo 1⟩) := by
  have created : (SemaphoreSet.create platform (indexName name) 0).program.run
      (platform.exec faults) (withBlock platform layout name size kernel) = _ :=
    SemaphoreSet.create_ok keyFree semaphores
  rw [new_block free block, run_ok _ created]
  rfl

theorem new_error_block (platform : Platform B) (hasher : K → Nat)
    (refused : ¬ (kernel.names (indexName name) = none ∧
      BlockGranted faults layout kernel.nextObject name size)) :
    ∃ e after, (new platform layout hasher name size).program.run (platform.exec faults) kernel =
      (.error e, after) ∧ after.existing = kernel.existing := by
  obtain ⟨e, after, ran, restored⟩ := Block.new_error platform refused
  rw [new, run_error _ ran]
  exact ⟨e, after, rfl, restored⟩

/-- Without its semaphores the block stays behind. -/
theorem new_error_semaphores (hasher : K → Nat)
    (free : kernel.names (indexName name) = none)
    (block : BlockGranted faults layout kernel.nextObject name size)
    (refused : ¬ (kernel.keys (SemaphoreSet.generateSemKey (indexName name)) = none ∧
      SemaphoreSet.Granted platform faults kernel.nextSet (indexName name) 0)) :
    ∃ e after, (new platform layout hasher name size).program.run (platform.exec faults) kernel =
      (.error e, after) ∧
        after.existing = (withBlock platform layout name size kernel).existing := by
  obtain ⟨e, after, ran, restored⟩ :=
    SemaphoreSet.create_error (withBlock platform layout name size kernel) refused
  rw [new_block free block, run_error _ ran]
  exact ⟨e, after, rfl, restored⟩

end SharedIndex

/-- Dropping slashes commutes with appending the suffix. -/
theorem indexName_text (name : String) :
    (indexName name : ShmName).text = (name : ShmName).text ++ "_pk" := by
  have suffix : "_pk".toList.dropWhile (· == '/') = "_pk".toList := by decide
  rw [← String.toList_inj]
  simp only [ShmName.ofString, indexName, String.toList_append, String.toList_ofList,
    List.dropWhile_append, suffix]
  split
  · rename_i nothing
    rw [List.isEmpty_iff.mp nothing, List.nil_append]
  · rfl

theorem indexName_ne (name : String) : (indexName name : ShmName) ≠ name := by
  intro same
  have longer := congrArg (fun name => name.text.length) same
  simp [indexName_text] at longer

namespace SharedTable
variable {layout : NodeLayout K B} {hasher : K → Nat} {name : String} {capacity recordSize : Nat}

/-- The data block of a new table is accepted. -/
def BlockGranted (faults : Action → Option Errno) (fd : Nat) (name : String)
    (capacity recordSize : Nat) : Prop :=
  Block.Granted faults fd name (Table.calculateTotalSize capacity recordSize)

def withBlock (platform : Platform B) (name : String) (capacity recordSize : Nat)
    (kernel : Kernel B) : Kernel B :=
  kernel.withBlock platform name
    ⟨Table.calculateTotalSize capacity recordSize, platform.dataMemory capacity recordSize⟩

def withSemaphores (platform : Platform B) (name : String) (capacity recordSize : Nat)
    (kernel : Kernel B) : Kernel B :=
  (withBlock platform name capacity recordSize kernel).createSet
    (SemaphoreSet.generateSemKey name)
    ⟨SemaphoreSet.stripesFor capacity,
      SemaphoreSet.resetUpTo (SemaphoreSet.stripesFor capacity)⟩

/-- What is left to do once the data block is there. -/
theorem create_block (free : kernel.names name = none)
    (granted : BlockGranted faults kernel.nextObject name capacity recordSize) :
    (createWithSize platform layout hasher name capacity recordSize).program.run
        (platform.exec faults) kernel =
      (do
        let semaphores ← SemaphoreSet.create platform name capacity
        let primaryKeys ← SharedIndex.new platform layout hasher name capacity
        let block : Block := ⟨name, pageSize * platform.page kernel.nextObject,
          Table.calculateTotalSize capacity recordSize, kernel.nextObject⟩
        pure { block, semaphores, primaryKeys } : Call (SharedTable K B)).program.run
        (platform.exec faults) (withBlock platform name capacity recordSize kernel) := by
  have header : platform.exec faults
      (kernel.withBlock platform name
        ⟨Table.calculateTotalSize capacity recordSize, platform.zeroMemory⟩)
      (.writeHeader kernel.nextObject (.new capacity)) =
        ((), kernel.withBlock platform name ⟨Table.calculateTotalSize capacity recordSize,
          { platform.zeroMemory with header := .new capacity }⟩) := by
    simp only [Platform.exec, Kernel.withBlock_object, Kernel.withBlock_setMemory]
  have slots : platform.exec faults
      (kernel.withBlock platform name ⟨Table.calculateTotalSize capacity recordSize,
        { platform.zeroMemory with header := .new capacity }⟩)
      (.slotsNew kernel.nextObject capacity recordSize) =
        ((), withBlock platform name capacity recordSize kernel) := by
    simp only [Platform.exec, Kernel.withBlock_object, Kernel.withBlock_setMemory]
    rfl
  rw [createWithSize, run_ok _ (Block.new_ok free granted), run_ofExcept _ (checkAligned_page _),
    run_reply _ header, run_ofExcept _ (checkAligned_page _), run_ofExcept _ (checkAligned_slots _),
    run_reply _ slots]

/-- Nothing stands in the way of what follows the data block. -/
structure RestGranted (platform : Platform B) (faults : Action → Option Errno) (kernel : Kernel B)
    (layout : NodeLayout K B) (name : String) (capacity : Nat) : Prop where
  keyFree : kernel.keys (SemaphoreSet.generateSemKey name) = none
  semaphores : SemaphoreSet.Granted platform faults kernel.nextSet name capacity
  indexFree : kernel.names (indexName name) = none
  indexBlock : SharedIndex.BlockGranted faults layout (kernel.nextObject + 1) name capacity
  indexKeyFree : kernel.keys (SemaphoreSet.generateSemKey (indexName name)) = none
  keysDiffer : SemaphoreSet.generateSemKey (indexName name) ≠ SemaphoreSet.generateSemKey name
  indexSemaphores : SemaphoreSet.Granted platform faults (kernel.nextSet + 1) (indexName name) 0

section Fields
variable (platform : Platform B) (name : String) (capacity recordSize : Nat) (kernel : Kernel B)

theorem withBlock_names :
    (withBlock platform name capacity recordSize kernel).names name = some kernel.nextObject :=
  Function.update_self ..

theorem withSemaphores_names :
    (withSemaphores platform name capacity recordSize kernel).names name =
      some kernel.nextObject :=
  Function.update_self ..

theorem withSemaphores_names_index :
    (withSemaphores platform name capacity recordSize kernel).names (indexName name) =
      kernel.names (indexName name) :=
  Function.update_of_ne (indexName_ne name) ..

theorem withSemaphores_keys {key : Int32} (different : key ≠ SemaphoreSet.generateSemKey name) :
    (withSemaphores platform name capacity recordSize kernel).keys key = kernel.keys key :=
  Function.update_of_ne different ..

theorem withSemaphores_keys_self :
    (withSemaphores platform name capacity recordSize kernel).keys
      (SemaphoreSet.generateSemKey name) = some kernel.nextSet :=
  Function.update_self ..

end Fields

/-- What is left to do once the semaphores are there as well. -/
theorem create_semaphores (free : kernel.names name = none)
    (block : BlockGranted faults kernel.nextObject name capacity recordSize)
    (keyFree : kernel.keys (SemaphoreSet.generateSemKey name) = none)
    (semaphores : SemaphoreSet.Granted platform faults kernel.nextSet name capacity) :
    (createWithSize platform layout hasher name capacity recordSize).program.run
        (platform.exec faults) kernel =
      (do
        let primaryKeys ← SharedIndex.new platform layout hasher name capacity
        let block : Block := ⟨name, pageSize * platform.page kernel.nextObject,
          Table.calculateTotalSize capacity recordSize, kernel.nextObject⟩
        pure { block, semaphores := .ofRecords kernel.nextSet capacity, primaryKeys }
          : Call (SharedTable K B)).program.run
        (platform.exec faults) (withSemaphores platform name capacity recordSize kernel) := by
  have created : (SemaphoreSet.create platform name capacity).program.run (platform.exec faults)
      (withBlock platform name capacity recordSize kernel) = _ :=
    SemaphoreSet.create_ok keyFree semaphores
  rw [create_block free block, run_ok _ created]
  rfl

def handle (platform : Platform B) (layout : NodeLayout K B) (hasher : K → Nat) (name : String)
    (capacity recordSize object semId : Nat) : SharedTable K B :=
  { block := ⟨name, pageSize * platform.page object,
      Table.calculateTotalSize capacity recordSize, object⟩
    semaphores := .ofRecords semId capacity
    primaryKeys := .handle platform layout hasher name capacity (object + 1) (semId + 1) }

theorem create_ok (hasher : K → Nat) (free : kernel.names name = none)
    (block : BlockGranted faults kernel.nextObject name capacity recordSize)
    (rest : RestGranted platform faults kernel layout name capacity) :
    (createWithSize platform layout hasher name capacity recordSize).program.run
        (platform.exec faults) kernel =
      (.ok (handle platform layout hasher name capacity recordSize kernel.nextObject
          kernel.nextSet),
        (SharedIndex.withBlock platform layout name capacity
          (withSemaphores platform name capacity recordSize kernel)).createSet
            (SemaphoreSet.generateSemKey (indexName name)) ⟨1, SemaphoreSet.resetUpTo 1⟩) := by
  have indexFree := withSemaphores_names_index platform name capacity recordSize kernel
  have indexKeyFree :=
    withSemaphores_keys platform name capacity recordSize kernel rest.keysDiffer
  have index : (SharedIndex.new platform layout hasher name capacity).program.run
      (platform.exec faults) (withSemaphores platform name capacity recordSize kernel) = _ :=
    SharedIndex.new_ok (indexFree.trans rest.indexFree) (indexKeyFree.trans rest.indexKeyFree)
      rest.indexBlock rest.indexSemaphores
  rw [create_semaphores free block rest.keyFree rest.semaphores, run_ok _ index]
  rfl

theorem create_error_block (platform : Platform B) (layout : NodeLayout K B) (hasher : K → Nat)
    (refused : ¬ (kernel.names name = none ∧
      BlockGranted faults kernel.nextObject name capacity recordSize)) :
    ∃ e after, (createWithSize platform layout hasher name capacity recordSize).program.run
        (platform.exec faults) kernel = (.error e, after) ∧
      after.existing = kernel.existing := by
  obtain ⟨e, after, ran, restored⟩ := Block.new_error platform refused
  rw [createWithSize, run_error _ ran]
  exact ⟨e, after, rfl, restored⟩

/-- A failure behind the data block leaves the data block. -/
theorem create_error_rest (hasher : K → Nat) (free : kernel.names name = none)
    (block : BlockGranted faults kernel.nextObject name capacity recordSize)
    (refused : ¬ RestGranted platform faults kernel layout name capacity) :
    ∃ e after, (createWithSize platform layout hasher name capacity recordSize).program.run
        (platform.exec faults) kernel = (.error e, after) ∧
      after.names name = some kernel.nextObject := by
  have kept : ∀ {before after : Kernel B}, after.existing = before.existing →
      before.names name = some kernel.nextObject → after.names name = some kernel.nextObject := by
    intro before after same named
    rwa [← (Prod.mk.inj same).1] at named
  have named := withSemaphores_names platform name capacity recordSize kernel
  have indexNamed := withSemaphores_names_index platform name capacity recordSize kernel
  by_cases semaphores : kernel.keys (SemaphoreSet.generateSemKey name) = none ∧
    SemaphoreSet.Granted platform faults kernel.nextSet name capacity
  · rw [create_semaphores free block semaphores.1 semaphores.2]
    generalize entered : withSemaphores platform name capacity recordSize kernel = before at *
    by_cases index : before.names (indexName name) = none ∧
      SharedIndex.BlockGranted faults layout before.nextObject name capacity
    · have remaining : ¬ (before.keys (SemaphoreSet.generateSemKey (indexName name)) = none ∧
          SemaphoreSet.Granted platform faults before.nextSet (indexName name) 0) := by
        subst entered
        rintro ⟨indexKeyFree, indexSemaphores⟩
        have keysDiffer : SemaphoreSet.generateSemKey (indexName name) ≠
            SemaphoreSet.generateSemKey name := by
          intro same
          rw [same, withSemaphores_keys_self] at indexKeyFree
          contradiction
        rw [withSemaphores_keys _ _ _ _ _ keysDiffer] at indexKeyFree
        exact refused ⟨semaphores.1, semaphores.2, indexNamed.symm.trans index.1, index.2,
          indexKeyFree, keysDiffer, indexSemaphores⟩
      obtain ⟨e, after, ran, left⟩ :=
        SharedIndex.new_error_semaphores hasher index.1 index.2 remaining
      rw [run_error _ ran]
      refine ⟨e, after, rfl, kept left ?_⟩
      exact (Function.update_of_ne (indexName_ne name).symm ..).trans named
    · obtain ⟨e, after, ran, restored⟩ := SharedIndex.new_error_block platform hasher index
      rw [run_error _ ran]
      exact ⟨e, after, rfl, kept restored named⟩
  · obtain ⟨e, after, ran, restored⟩ :=
      SemaphoreSet.create_error (withBlock platform name capacity recordSize kernel) semaphores
    rw [create_block free block, run_error _ ran]
    exact ⟨e, after, rfl, kept restored (withBlock_names ..)⟩

/-- What a creation that succeeds has found and returns. -/
theorem create_ok_inv {table : SharedTable K B} {after : Kernel B}
    (created : (createWithSize platform layout hasher name capacity recordSize).program.run
      (platform.exec faults) kernel = (.ok table, after)) :
    kernel.names name = none ∧
      BlockGranted faults kernel.nextObject name capacity recordSize ∧
      RestGranted platform faults kernel layout name capacity ∧
      table = handle platform layout hasher name capacity recordSize kernel.nextObject
        kernel.nextSet := by
  by_cases block : kernel.names name = none ∧
    BlockGranted faults kernel.nextObject name capacity recordSize
  · by_cases rest : RestGranted platform faults kernel layout name capacity
    · rw [create_ok hasher block.1 block.2 rest] at created
      exact ⟨block.1, block.2, rest, (Except.ok.inj (Prod.mk.inj created).1).symm⟩
    · obtain ⟨e, left, failed, -⟩ := create_error_rest hasher block.1 block.2 rest
      rw [failed] at created
      cases created
  · obtain ⟨e, left, failed, -⟩ := create_error_block platform layout hasher block
    rw [failed] at created
    cases created

end SharedTable
end InMemoryTable
