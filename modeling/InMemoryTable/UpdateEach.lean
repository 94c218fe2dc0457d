import InMemoryTable.FailedCalls

/-! `update_many` next to `update_with_lock` on one key after the other: two loops
written apart that go through the same memories, up to the first error. -/
namespace InMemoryTable
namespace Table
variable {K T B : Type} [DecidableEq K] (self : Table K B) (codec : Bincode T)
  (semop : Nat → Except Errno Unit)

/-- `update_with_lock` on the keys in turn until the first error, counting the
keys that were found. -/
def updateEach (updater : T → T) : TableMemory B → List K → Nat →
    Option (Except InMemoryTableError Nat × TableMemory B)
  | memory, [], found => some (.ok found, memory)
  | memory, key :: keys, found => do
    match ← self.updateWithLock codec semop memory key (fun record => ((), updater record)) with
    | (.error e, memory) => some (.error e, memory)
    | (.ok none, memory) => updateEach updater memory keys found
    | (.ok (some _), memory) => updateEach updater memory keys (found + 1)

variable {self codec semop} {updater : T → T} {memory middle after : TableMemory B}
  {e : InMemoryTableError} {key : K} {keys pre post : List K} {found count : Nat}

theorem updateMany_eq_updateEach (memory : TableMemory B) (keys : List K) (found : Nat) :
    self.updateMany codec semop updater memory keys found =
      self.updateEach codec semop updater memory keys found := by
  induction keys generalizing memory found with
  | nil => rfl
  | cons key keys ih =>
    cases position : self.primaryKeys.get memory.index key with
    | none => simp only [updateMany, updateEach, updateWithLock, position, bind, Option.bind_none]
    | some slot =>
      cases slot with
      | none => simp [updateMany, updateEach, updateWithLock, position, ih]
      | some index =>
        cases locked : self.semaphores.lockRecord semop index with
        | error e => simp [updateMany, updateEach, updateWithLock, position, locked]
        | ok =>
          cases read : Table.get codec memory index with
          | error e => simp [updateMany, updateEach, updateWithLock, position, locked, read]
          | ok stored =>
            cases stored with
            | none => simp [updateMany, updateEach, updateWithLock, position, locked, read, ih]
            | some record =>
              cases stored : update codec memory index (updater record) with
              | mk result written =>
                cases result <;>
                  simp [updateMany, updateEach, updateWithLock, position, locked, read, stored, ih]

/-- The keys in front are worked off first; an error among them ends the call. -/
theorem updateMany_append (updated : self.updateMany codec semop updater memory pre found =
      some (.ok count, middle)) :
    self.updateMany codec semop updater memory (pre ++ post) found =
      self.updateMany codec semop updater middle post count := by
  simp only [updateMany_eq_updateEach] at updated ⊢
  induction pre generalizing memory found with
  | nil =>
    cases updated
    rfl
  | cons key pre ih =>
    simp only [updateEach, bind, Option.bind_eq_some_iff] at updated
    obtain ⟨⟨result, written⟩, returned, updated⟩ := updated
    simp only [List.cons_append, updateEach, returned, bind, Option.bind_some]
    cases result with
    | error e => cases updated
    | ok reply =>
      cases reply with
      | none => exact ih updated
      | some _ => exact ih updated

/-- A call that returns an error has worked off the keys in front of the one that
fails, and leaves the memory as it was before that key. -/
theorem updateMany_error_iff :
    self.updateMany codec semop updater memory keys found = some (.error e, after) ↔
      ∃ pre key post count, keys = pre ++ key :: post ∧
        self.updateMany codec semop updater memory pre found = some (.ok count, after) ∧
        self.updateWithLock codec semop after key (fun record => ((), updater record)) =
          some (.error e, after) := by
  constructor
  · intro failed
    simp only [updateMany_eq_updateEach] at failed ⊢
    induction keys generalizing memory found with
    | nil => cases failed
    | cons key keys ih =>
      simp only [updateEach, bind, Option.bind_eq_some_iff] at failed
      obtain ⟨⟨result, written⟩, returned, failed⟩ := failed
      cases result with
      | error e =>
        cases failed
        obtain rfl := updateWithLock_error returned
        exact ⟨[], key, keys, found, rfl, rfl, returned⟩
      | ok reply =>
        cases reply with
        | none =>
          obtain ⟨pre, last, post, count, rfl, updated, refused⟩ := ih failed
          exact ⟨key :: pre, last, post, count, rfl,
            by simp only [updateEach, returned, bind, Option.bind_some, updated], refused⟩
        | some _ =>
          obtain ⟨pre, last, post, count, rfl, updated, refused⟩ := ih failed
          exact ⟨key :: pre, last, post, count, rfl,
            by simp only [updateEach, returned, bind, Option.bind_some, updated], refused⟩
  · rintro ⟨pre, key, post, count, rfl, updated, refused⟩
    rw [updateMany_append updated, updateMany_eq_updateEach]
    simp only [updateEach, refused, bind, Option.bind_some]

end Table
end InMemoryTable
