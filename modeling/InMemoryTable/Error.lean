/-! The errors of the table, and the translation of the `errno` of a failed
call. -/
namespace InMemoryTable

inductive InMemoryTableError where
  | invalidName (name : String)
  | shmAlreadyExists (name : String)
  | shmPermissionDenied
  | shmNoSpace
  | shmTooLarge (requested : Nat)
  | shmOutOfMemory
  | shmMappingFailed
  | shmBadFileDescriptor
  | shmError (message : String)
  | semaphoreAlreadyExists (key : Int) (name : String)
  | semaphoreLimitReached
  | semaphorePermissionDenied
  | semaphoreInvalidParams (requested : Nat)
  | semaphoreOutOfMemory
  | semaphoreOperationFailed (semNum : Nat)
  | semaphoreRemoved
  | semaphoreInvalidIndex (semNum max : Nat)
  | semaphoreNotExists (key : Int)
  | semaphoreError (message : String)
  | tableFull (current capacity : Nat)
  | invalidIndex (index max : Nat)
  | serializationError (message : String)
  | deserializationError (message : String)
  | notInitialized
  | recordSizeTooBig (current max : Nat)
  | recordDuplicated
  | misalignedMemory (address required : Nat)
  deriving DecidableEq, Repr

/-- The `errno` values that the code tells apart after `semop`; `other` is any
other number. -/
inductive Errno where
  | eidrm
  | einval
  | efbig
  | other (number : Nat)
  deriving DecidableEq, Repr

namespace Errno

/-- The `errno` values of `shm_open`, `ftruncate` and `semget` by their numbers. -/
@[match_pattern] def eperm : Errno := .other 1
@[match_pattern] def enoent : Errno := .other 2
@[match_pattern] def ebadf : Errno := .other 9
@[match_pattern] def enomem : Errno := .other 12
@[match_pattern] def eacces : Errno := .other 13
@[match_pattern] def eexist : Errno := .other 17
@[match_pattern] def enospc : Errno := .other 28

/-- The numbers of the values that have a name of their own. -/
def number : Errno → Nat
  | .eidrm => 43
  | .einval => 22
  | .efbig => 27
  | .other number => number

end Errno

/-- `text` displays an error number. -/
def InMemoryTableError.fromShmError (text : Errno → String) (errno : Errno) (name : String) :
    InMemoryTableError :=
  match errno with
  | .eexist => .shmAlreadyExists name
  | .eacces | .eperm => .shmPermissionDenied
  | .einval => .invalidName name
  | .enospc => .shmNoSpace
  | .enomem => .shmOutOfMemory
  | .ebadf => .shmBadFileDescriptor
  | _ => .shmError (text errno)

def InMemoryTableError.fromFtruncateError (text : Errno → String) (errno : Errno) (size : Nat) :
    InMemoryTableError :=
  match errno with
  | .efbig => .shmTooLarge size
  | .enospc => .shmNoSpace
  | _ => .shmError ("ftruncate: " ++ text errno)

def InMemoryTableError.fromSemgetError (text : Errno → String) (errno : Errno) (key : Int)
    (name : String) (numSems : Nat) : InMemoryTableError :=
  match errno with
  | .eexist => .semaphoreAlreadyExists key name
  | .enospc => .semaphoreLimitReached
  | .eacces | .eperm => .semaphorePermissionDenied
  | .einval => .semaphoreInvalidParams numSems
  | .enomem => .semaphoreOutOfMemory
  | .enoent => .semaphoreNotExists key
  | _ =>
    .semaphoreError
      ("semget errno: " ++ toString errno.number ++ " (" ++ text errno ++ ")")

def InMemoryTableError.fromSemopError (errno : Errno) (semNum max : Nat) : InMemoryTableError :=
  match errno with
  | .eidrm => .semaphoreRemoved
  | .einval | .efbig => .semaphoreInvalidIndex semNum max
  | .other _ => .semaphoreOperationFailed semNum

end InMemoryTable
