import InMemoryTable.Constructors

/-! What a failed `create_with_size` leaves behind. The block of a failed
`Block::new` and the set of a failed `SemaphoreSet::create` are removed again; a
block or set that was complete before a later stage failed is not. -/
namespace InMemoryTable
open Program

variable {K B : Type} {platform : Platform B} {faults : Action → Option Errno}
  {kernel : Kernel B} {layout : NodeLayout K B} {hasher : K → Nat} {name : String}
  {capacity recordSize : Nat}

/-- A failed creation restores the names, keys and sets that existed exactly if
it failed at the data block; behind it nothing may fail. -/
theorem create_failure_restores (platform : Platform B) (faults : Action → Option Errno)
    (kernel : Kernel B) (layout : NodeLayout K B) (hasher : K → Nat) (name : String)
    (capacity recordSize : Nat) :
    (∀ e after, (SharedTable.createWithSize platform layout hasher name capacity
        recordSize).program.run (platform.exec faults) kernel = (.error e, after) →
      after.existing = kernel.existing) ↔
    ¬ (kernel.names name = none ∧
        SharedTable.BlockGranted faults kernel.nextObject name capacity recordSize) ∨
      SharedTable.RestGranted platform faults kernel layout name capacity := by
  constructor
  · intro restores
    by_contra left
    obtain ⟨⟨free, block⟩, refused⟩ : (_ ∧ _) ∧ _ := by
      simpa only [not_or, not_not] using left
    obtain ⟨e, after, ran, named⟩ :=
      SharedTable.create_error_rest hasher free block refused
    have restored := (Prod.mk.inj (restores e after ran)).1
    rw [restored, free] at named
    contradiction
  · rintro granted e after ran
    by_cases block : kernel.names name = none ∧
      SharedTable.BlockGranted faults kernel.nextObject name capacity recordSize
    · have rest := granted.resolve_left (not_not.mpr block)
      rw [SharedTable.create_ok hasher block.1 block.2 rest] at ran
      simp at ran
    · obtain ⟨e', after', ran', restored⟩ :=
        SharedTable.create_error_block platform layout hasher block
      rw [ran'] at ran
      obtain ⟨-, rfl⟩ := Prod.mk.inj ran
      exact restored

/-- The kernel after a table `Aa` was created. -/
def Kernel.afterOther : Kernel (Node UInt8) :=
  ((SharedTable.createWithSize .sample (.cell UInt8) UInt8.toNat "Aa" 1 1).program.run
    (Platform.sample.exec (fun _ => none)) (.empty .sample)).2

/-- The names `Aa` and `BB` have the same semaphore key: the creation of `BB`
fails at its semaphores and leaves its data block behind. -/
theorem create_failure_leaves_block :
    ∃ e after, (SharedTable.createWithSize .sample (.cell UInt8) UInt8.toNat "BB" 1 1).program.run
        (Platform.sample.exec (fun _ => none)) .afterOther = (.error e, after) ∧
      after.existing ≠ Kernel.afterOther.existing := by
  have free : Kernel.afterOther.names "BB" = none := by decide +kernel
  have taken : Kernel.afterOther.keys (SemaphoreSet.generateSemKey "BB") ≠ none := by
    decide +kernel
  have block : SharedTable.BlockGranted (fun _ => none) Kernel.afterOther.nextObject "BB" 1 1 :=
    ⟨by decide +kernel, rfl, rfl, by decide +kernel, rfl, by decide +kernel⟩
  obtain ⟨e, after, ran, named⟩ := SharedTable.create_error_rest UInt8.toNat free block
    (fun rest => taken rest.keyFree)
  refine ⟨e, after, ran, fun restored => ?_⟩
  rw [(Prod.mk.inj restored).1, free] at named
  contradiction

end InMemoryTable
