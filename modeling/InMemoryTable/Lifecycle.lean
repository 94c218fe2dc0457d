import InMemoryTable.Kernel
import Mathlib.Data.String.Basic

/-! Creating, opening and destroying a table: what the constructors and
destructors of the handles ask of the operating system, call by call. Closing a
file descriptor and unmapping a block leave the kernel as it is. -/
namespace InMemoryTable
open Program

abbrev Call (α : Type) : Type := Fallible Action Action.Reply InMemoryTableError α

variable {K B : Type} (platform : Platform B)

/-- The check of `Header::new`, `Header::with_value` and `MemoryArray::new`. -/
def checkAligned (address required : Nat) : Except InMemoryTableError Unit :=
  if address % required = 0 then .ok () else .error (.misalignedMemory address required)

/-- `align_of` of the three headers. -/
def headerAlignment : Nat := 8

/-- `CString::new` -/
def cString (name : String) : Except InMemoryTableError String :=
  if Char.ofNat 0 ∈ name.toList then .error (.invalidName name) else .ok name

/-- `mmap_open`; the caller gets the error as a value. -/
def mmapOpen (fd size : Nat) : Call (Except InMemoryTableError Nat) := do
  match (← perform (.mmap fd size) : Except Errno Nat) with
  | .error _ => pure (.error .shmMappingFailed)
  | .ok ptr => pure (.ok ptr)

structure Block where
  name : String
  ptr : Nat
  size : Nat
  fd : Nat
  deriving DecidableEq

namespace Block

def new (name : String) (totalSize : Nat) : Call Block := do
  let shmName ← ofExcept (cString name)
  match (← perform (.shmOpenNew shmName) : Except Errno Nat) with
  | .error e => throw (.shmError ("shm_open failed: " ++ platform.nixText e))
  | .ok fd =>
    match (← perform (.ftruncate fd totalSize) : Except Errno Unit) with
    | .error e =>
      let _ ← perform (.shmUnlink shmName)
      throw (.fromFtruncateError platform.nixText e totalSize)
    | .ok () =>
      match ← mmapOpen fd totalSize with
      | .error e =>
        let _ ← perform (.shmUnlink shmName)
        throw e
      | .ok ptr =>
        let _ ← perform (.writeBytes fd totalSize)
        pure { name := shmName, ptr, size := totalSize, fd }

/-- `Block::open` -/
def openExisting (name : String) : Call Block := do
  let shmName ← ofExcept (cString name)
  match (← perform (.shmOpen shmName) : Except Errno Nat) with
  | .error e => throw (.fromShmError platform.nixText e name)
  | .ok fd =>
    match (← perform (.fstat fd) : Except Errno Nat) with
    | .error e => throw (.shmError ("fstat failed: " ++ platform.nixText e))
    | .ok totalSize =>
      match ← mmapOpen fd totalSize with
      | .error e => throw e
      | .ok ptr => pure { name := shmName, ptr, size := totalSize, fd }

def destroy (self : Block) : Call Unit := do
  match (← perform (.shmUnlink self.name) : Except Errno Unit) with
  | .error e => throw (.shmError ("shm_unlink failed: " ++ platform.nixText e))
  | .ok () => pure ()

end Block

/-- `sem_reset` from `position` on, `remaining` semaphores before the end. -/
def semReset (semId size : Nat) : Nat → Nat → Call Unit
  | _, 0 => pure ()
  | position, remaining + 1 => do
    match (← perform (.semop semId (asU16 position)) : Except Errno Unit) with
    | .error e =>
      let _ ← perform (.semctlRmid semId)
      throw (.fromSemopError e position size)
    | .ok () => semReset semId size (position + 1) remaining

namespace SemaphoreSet

def generateSemKey (name : String) : Int32 :=
  let hash := name.toUTF8.toList.foldl
    (fun hash byte => hash * 31 + Int32.ofNat byte.toNat) (0x1234 : Int32)
  let key := hash.abs
  if key = 0 then 0x1234 else key

/-- `stripes` in `create` and `open`. -/
def stripesFor (numRecords : Nat) : Nat := (ofRecords 0 numRecords).stripes

def create (name : String) (numRecords : Nat) : Call SemaphoreSet := do
  let stripes := stripesFor numRecords
  let key := generateSemKey name
  match (← perform (.semgetNew key (asI32 stripes)) : Except Errno Nat) with
  | .error e => throw (.fromSemgetError platform.osText e key.toInt name stripes)
  | .ok semId =>
    semReset semId stripes 0 stripes
    pure (ofRecords semId numRecords)

/-- `SemaphoreSet::open` -/
def openExisting (name : String) (numRecords : Nat) : Call SemaphoreSet := do
  let stripes := stripesFor numRecords
  let key := generateSemKey name
  match (← perform (.semget key (asI32 stripes)) : Except Errno Nat) with
  | .error e => throw (.fromSemgetError platform.osText e key.toInt name stripes)
  | .ok semId => pure (ofRecords semId numRecords)

def destroy (self : SemaphoreSet) : Call Unit := do
  match (← perform (.semctlRmid self.semId) : Except Errno Unit) with
  | .error e => throw (.semaphoreError ("semctl IPC_RMID failed: " ++ platform.osText e))
  | .ok () => pure ()

end SemaphoreSet

/-- A handle of the index with the resources behind it. -/
structure SharedIndex (K B : Type) where
  block : Block
  index : Index K B
  semaphores : SemaphoreSet

/-- The name of the index block and of its semaphores. -/
def indexName (name : String) : String := name ++ "_pk"

namespace SharedIndex
variable (layout : NodeLayout K B) (hasher : K → Nat)

def new (name : String) (size : Nat) : Call (SharedIndex K B) := do
  let totalBucketsSize := Index.totalBucketsSize size
  let totalSize := Index.totalSize size layout.size
  let block ← Block.new platform (indexName name) totalSize
  ofExcept (checkAligned block.ptr headerAlignment)
  ofExcept (checkAligned (block.ptr + totalBucketsSize) headerAlignment)
  let _ ← perform (.indexSlotsNew block.fd size layout.size)
  let semaphores ← SemaphoreSet.create platform (indexName name) 0
  pure { block, index := .handle layout hasher size, semaphores }

/-- `Index::open` -/
def openExisting (name : String) (size : Nat) : Call (SharedIndex K B) := do
  let totalBucketsSize := Index.totalBucketsSize size
  let block ← Block.openExisting platform (indexName name)
  ofExcept (checkAligned block.ptr headerAlignment)
  ofExcept (checkAligned (block.ptr + totalBucketsSize) headerAlignment)
  let semaphores ← SemaphoreSet.openExisting platform (indexName name) 0
  pure { block, index := .handle layout hasher size, semaphores }

def destroy (self : SharedIndex K B) : Call Unit := do
  self.block.destroy platform
  self.semaphores.destroy platform

end SharedIndex

/-- A handle of a table with the resources behind it. -/
structure SharedTable (K B : Type) where
  block : Block
  semaphores : SemaphoreSet
  primaryKeys : SharedIndex K B

namespace SharedTable
variable (layout : NodeLayout K B) (hasher : K → Nat)

def createWithSize (name : String) (capacity recordSize : Nat) : Call (SharedTable K B) := do
  let totalSize := Table.calculateTotalSize capacity recordSize
  let block ← Block.new platform name totalSize
  ofExcept (checkAligned block.ptr headerAlignment)
  let _ ← perform (.writeHeader block.fd (.new capacity))
  ofExcept (checkAligned block.ptr headerAlignment)
  ofExcept (checkAligned (Header.data block.ptr tableHeaderSize) headerAlignment)
  let _ ← perform (.slotsNew block.fd capacity recordSize)
  let semaphores ← SemaphoreSet.create platform name capacity
  let primaryKeys ← SharedIndex.new platform layout hasher name capacity
  pure { block, semaphores, primaryKeys }

/-- `Table::open`, which reads the capacity in the header at each use. -/
def openExisting (name : String) : Call (SharedTable K B) := do
  let block ← Block.openExisting platform name
  ofExcept (checkAligned block.ptr headerAlignment)
  ofExcept (checkAligned block.ptr headerAlignment)
  let valid ← perform (.isValid block.fd)
  if !valid then throw .notInitialized
  ofExcept (checkAligned (Header.data block.ptr tableHeaderSize) headerAlignment)
  let capacity ← perform (.readCapacity block.fd)
  let semaphores ← SemaphoreSet.openExisting platform name capacity
  let capacity ← perform (.readCapacity block.fd)
  let primaryKeys ← SharedIndex.openExisting platform layout hasher name capacity
  pure { block, semaphores, primaryKeys }

def destroy (self : SharedTable K B) : Call Unit := do
  self.block.destroy platform
  self.semaphores.destroy platform
  self.primaryKeys.destroy platform

end SharedTable
end InMemoryTable
