import InMemoryTable.Constructors

/-! The sizes that a creation asks for. They are computed on `usize` and wrap
around; a call to `ftruncate` is the first to see them. -/
namespace InMemoryTable
open Program

variable {K B : Type} {platform : Platform B} {faults : Action → Option Errno} {kernel : Kernel B}

/-- The object and the size of an allocation. -/
def Action.allocation : Action → Option (Nat × Nat)
  | .ftruncate fd length => some (fd, length)
  | _ => none

def Action.Quiet (action : Action) : Prop := action.allocation = none

/-- The sizes that a call alone asks for, one for each allocation. -/
def Kernel.allocations {α : Type} (platform : Platform B) (faults : Action → Option Errno)
    (kernel : Kernel B) (call : Call α) : List (Nat × Nat) :=
  (call.program.trace (platform.exec faults) kernel).filterMap Action.allocation

section Calls
variable {α β : Type} {first : Call α} {rest : α → Call β} {after : Kernel B}

theorem allocations_quiet {call : Call α} (quiet : call.program.Only Action.Quiet)
    (kernel : Kernel B) : kernel.allocations platform faults call = [] := by
  refine List.filterMap_eq_nil_iff.mpr fun action member => ?_
  exact quiet.trace _ kernel action member

theorem allocations_ok {value : α}
    (ran : first.program.run (platform.exec faults) kernel = (.ok value, after)) :
    kernel.allocations platform faults (first >>= rest) =
      kernel.allocations platform faults first ++
        after.allocations platform faults (rest value) := by
  rw [Kernel.allocations, trace_ok _ ran, List.filterMap_append]
  rfl

theorem allocations_error {e : InMemoryTableError}
    (ran : first.program.run (platform.exec faults) kernel = (.error e, after)) :
    kernel.allocations platform faults (first >>= rest) =
      kernel.allocations platform faults first := by
  rw [Kernel.allocations, trace_error _ ran]
  rfl

/-- What comes last and is quiet does not matter. -/
theorem allocations_seq (quiet : ∀ value, (rest value).program.Only Action.Quiet)
    (kernel : Kernel B) :
    kernel.allocations platform faults (first >>= rest) =
      kernel.allocations platform faults first := by
  generalize ran : first.program.run (platform.exec faults) kernel = outcome
  obtain ⟨result, after⟩ := outcome
  cases result with
  | ok value => rw [allocations_ok ran, allocations_quiet (quiet value), List.append_nil]
  | error e => exact allocations_error ran

theorem allocations_ofExcept {outcome : Except InMemoryTableError α} {value : α}
    (ok : outcome = .ok value) (rest : α → Call β) (kernel : Kernel B) :
    kernel.allocations platform faults (ofExcept outcome >>= rest) =
      kernel.allocations platform faults (rest value) := by
  subst ok
  rfl

theorem allocations_perform (action : Action) (rest : action.Reply → Call β) (kernel : Kernel B) :
    kernel.allocations platform faults (perform action >>= rest) =
      action.allocation.toList ++ (platform.exec faults kernel action).2.allocations platform faults
        (rest (platform.exec faults kernel action).1) := by
  have traced : (perform action >>= rest).program.trace (platform.exec faults) kernel =
      action :: (rest (platform.exec faults kernel action).1).program.trace (platform.exec faults)
        (platform.exec faults kernel action).2 := rfl
  rw [Kernel.allocations, traced, List.filterMap_cons]
  cases action.allocation <;> rfl

end Calls

/-! ### Only a new block allocates -/

theorem semReset_quiet (semId size remaining position : Nat) :
    (semReset semId size position remaining).program.Only Action.Quiet := by
  induction remaining generalizing position with
  | zero => exact trivial
  | succ remaining ih =>
    refine ⟨rfl, fun reply => ?_⟩
    cases reply with
    | error e => exact ⟨rfl, fun _ => trivial⟩
    | ok done => exact ih (position + 1)

theorem SemaphoreSet.create_quiet (platform : Platform B) (name : String) (numRecords : Nat) :
    (create platform name numRecords).program.Only Action.Quiet := by
  refine ⟨rfl, fun reply => ?_⟩
  cases reply with
  | error e => exact trivial
  | ok semId => exact Only.seq (semReset_quiet ..) fun _ => trivial

namespace Block

/-- The name is free and `shm_open` does not fail otherwise. -/
structure Opens (faults : Action → Option Errno) (kernel : Kernel B) (name : String) : Prop where
  noNul : Char.ofNat 0 ∉ name.toList
  opens : faults (.shmOpenNew name) = none
  free : kernel.names name = none

/-- A new block asks for its size as soon as its object is there. -/
theorem new_allocations (platform : Platform B) (faults : Action → Option Errno)
    (kernel : Kernel B) (name : String) (totalSize : Nat) :
    (Opens faults kernel name ∧ kernel.allocations platform faults (new platform name totalSize) =
      [(kernel.nextObject, totalSize)]) ∨
    (¬ Opens faults kernel name ∧
      kernel.allocations platform faults (new platform name totalSize) = []) := by
  by_cases noNul : Char.ofNat 0 ∈ name.toList
  · refine .inr ⟨fun opens => opens.noNul noNul, ?_⟩
    have invalid : (ofExcept (cString name) : Call String).program.run (platform.exec faults)
        kernel = (.error (.invalidName name), kernel) := by
      simp [cString, noNul, Program.ofExcept, Program.run]
    rw [new, allocations_error invalid]
    rfl
  have valid : cString name = .ok name := by simp [cString, noNul]
  rw [new, allocations_ofExcept valid, allocations_perform]
  cases opens : faults (.shmOpenNew name) with
  | some errno =>
    refine .inr ⟨fun granted => by simp [granted.opens] at opens, ?_⟩
    simp only [Platform.exec, opens, Kernel.orFault]
    rfl
  | none =>
    cases free : kernel.names name with
    | some object =>
      refine .inr ⟨fun granted => by simp [granted.free] at free, ?_⟩
      simp only [Platform.exec, opens, Kernel.orFault, Kernel.shmOpenNew, free]
      rfl
    | none =>
      refine .inl ⟨⟨noNul, opens, free⟩, ?_⟩
      simp only [Platform.exec, opens, Kernel.orFault, Kernel.shmOpenNew, free]
      rw [allocations_perform, allocations_quiet]
      · rfl
      · -- no other size is asked for, whatever the replies are
        generalize (platform.exec faults (kernel.createObject platform name)
          (.ftruncate kernel.nextObject totalSize)).1 = reply
        cases reply with
        | error e => exact ⟨rfl, fun _ => trivial⟩
        | ok done =>
          refine ⟨rfl, fun mapped => ?_⟩
          cases mapped with
          | error e => exact ⟨rfl, fun _ => trivial⟩
          | ok ptr => exact ⟨rfl, fun _ => trivial⟩

end Block

section Creation
variable {layout : NodeLayout K B} {hasher : K → Nat} {name : String} {capacity recordSize : Nat}

theorem SharedIndex.new_allocations (platform : Platform B) (faults : Action → Option Errno)
    (kernel : Kernel B) :
    kernel.allocations platform faults (new platform layout hasher name capacity) =
      kernel.allocations platform faults
        (Block.new platform (indexName name) (Index.totalSize capacity layout.size)) := by
  refine allocations_seq (fun block => ?_) kernel
  have checked : ∀ result : Except InMemoryTableError Unit,
      (ofExcept result : Call Unit).program.Only Action.Quiet := fun _ => trivial
  refine (checked _).seq fun _ => (checked _).seq fun _ => ⟨rfl, fun _ => ?_⟩
  exact (SemaphoreSet.create_quiet ..).seq fun _ => trivial

namespace SharedTable

/-- The creation gets as far as the object of the index. -/
structure ReachesIndex (platform : Platform B) (faults : Action → Option Errno)
    (kernel : Kernel B) (name : String) (capacity recordSize : Nat) : Prop where
  free : kernel.names name = none
  block : BlockGranted faults kernel.nextObject name capacity recordSize
  keyFree : kernel.keys (SemaphoreSet.generateSemKey name) = none
  semaphores : SemaphoreSet.Granted platform faults kernel.nextSet name capacity
  opens : Block.Opens faults kernel (indexName name)

/-- What a creation asks for behind its data block. -/
theorem create_block_allocations (free : kernel.names name = none)
    (granted : BlockGranted faults kernel.nextObject name capacity recordSize) :
    kernel.allocations platform faults
        (createWithSize platform layout hasher name capacity recordSize) =
      kernel.allocations platform faults
        (Block.new platform name (Table.calculateTotalSize capacity recordSize)) ++
      (withBlock platform name capacity recordSize kernel).allocations platform faults (do
        let semaphores ← SemaphoreSet.create platform name capacity
        let primaryKeys ← SharedIndex.new platform layout hasher name capacity
        let block : Block := ⟨name, pageSize * platform.page kernel.nextObject,
          Table.calculateTotalSize capacity recordSize, kernel.nextObject⟩
        pure { block, semaphores, primaryKeys } : Call (SharedTable K B)) := by
  rw [createWithSize, allocations_ok (Block.new_ok free granted),
    allocations_ofExcept (checkAligned_page _), allocations_perform,
    allocations_ofExcept (checkAligned_page _), allocations_ofExcept (checkAligned_slots _),
    allocations_perform]
  simp only [Platform.exec, Kernel.withBlock_object, Kernel.withBlock_setMemory]
  rfl

/-- The sizes that a creation asks for: that of the data block as soon as its
object is there, that of the index block if it gets as far as that. -/
theorem create_allocations (platform : Platform B) (layout : NodeLayout K B) (hasher : K → Nat)
    (faults : Action → Option Errno) (kernel : Kernel B) (fd length : Nat) :
    (fd, length) ∈ kernel.allocations platform faults
        (createWithSize platform layout hasher name capacity recordSize) ↔
      (Block.Opens faults kernel name ∧ fd = kernel.nextObject ∧
        length = Table.calculateTotalSize capacity recordSize) ∨
      (ReachesIndex platform faults kernel name capacity recordSize ∧
        fd = kernel.nextObject + 1 ∧ length = Index.totalSize capacity layout.size) := by
  have data : (fd, length) ∈ kernel.allocations platform faults
      (Block.new platform name (Table.calculateTotalSize capacity recordSize)) ↔
      Block.Opens faults kernel name ∧ fd = kernel.nextObject ∧
        length = Table.calculateTotalSize capacity recordSize := by
    obtain ⟨opens, asked⟩ | ⟨refused, silent⟩ := Block.new_allocations platform faults kernel name
      (Table.calculateTotalSize capacity recordSize)
    · simp [asked, opens]
    · simp [silent, refused]
  by_cases block : kernel.names name = none ∧
    BlockGranted faults kernel.nextObject name capacity recordSize
  swap
  · obtain ⟨e, after, ran, -⟩ := Block.new_error platform block
    have stops : ¬ ReachesIndex platform faults kernel name capacity recordSize :=
      fun reaches => block ⟨reaches.free, reaches.block⟩
    rw [createWithSize, allocations_error ran, data]
    simp [stops]
  obtain ⟨free, block⟩ := block
  rw [create_block_allocations free block, List.mem_append, data]
  refine or_congr_right ?_
  by_cases semaphores : kernel.keys (SemaphoreSet.generateSemKey name) = none ∧
    SemaphoreSet.Granted platform faults kernel.nextSet name capacity
  swap
  · obtain ⟨e, after, ran, -⟩ :=
      SemaphoreSet.create_error (withBlock platform name capacity recordSize kernel) semaphores
    have stops : ¬ ReachesIndex platform faults kernel name capacity recordSize :=
      fun reaches => semaphores ⟨reaches.keyFree, reaches.semaphores⟩
    rw [allocations_error ran, allocations_quiet (SemaphoreSet.create_quiet ..)]
    simp [stops]
  obtain ⟨keyFree, semaphores⟩ := semaphores
  have created : (SemaphoreSet.create platform name capacity).program.run (platform.exec faults)
      (withBlock platform name capacity recordSize kernel) =
        (_, withSemaphores platform name capacity recordSize kernel) :=
    SemaphoreSet.create_ok keyFree semaphores
  rw [allocations_ok created, allocations_quiet (SemaphoreSet.create_quiet ..), List.nil_append,
    allocations_seq, SharedIndex.new_allocations]
  swap
  · exact fun _ => trivial
  have names := withSemaphores_names_index platform name capacity recordSize kernel
  obtain ⟨opens, asked⟩ | ⟨refused, silent⟩ := Block.new_allocations platform faults
    (withSemaphores platform name capacity recordSize kernel) (indexName name)
    (Index.totalSize capacity layout.size)
  · have reaches : ReachesIndex platform faults kernel name capacity recordSize :=
      ⟨free, block, keyFree, semaphores, opens.noNul, opens.opens, names.symm.trans opens.free⟩
    have next : (withSemaphores platform name capacity recordSize kernel).nextObject =
        kernel.nextObject + 1 := rfl
    simp [asked, reaches, next]
  · have stops : ¬ ReachesIndex platform faults kernel name capacity recordSize := by
      intro reaches
      exact refused ⟨reaches.opens.noNul, reaches.opens.opens, names.trans reaches.opens.free⟩
    simp [silent, stops]

end SharedTable
end Creation

/-! ### Exact sizes -/

/-- `wrapping` arithmetic is exact below the modulus. -/
theorem wrappingAdd_eq_iff (a b : Nat) : wrappingAdd a b = a + b ↔ a + b < usizeModulus :=
  ⟨fun same => same ▸ Nat.mod_lt _ (by decide), Nat.mod_eq_of_lt⟩

theorem wrappingMul_eq_iff (a b : Nat) : wrappingMul a b = a * b ↔ a * b < usizeModulus :=
  ⟨fun same => same ▸ Nat.mod_lt _ (by decide), Nat.mod_eq_of_lt⟩

/-- `total` is the exact size of `first` bytes and the slots, and no operation on
the way to it wraps around. -/
structure Slots.SizeExact (first capacity dataSize total : Nat) : Prop where
  stride : wrappingAdd slotMetadataSize dataSize = slotMetadataSize + dataSize
  slots : calculateRequiredSize capacity dataSize = (slotMetadataSize + dataSize) * capacity
  total : total = first + (slotMetadataSize + dataSize) * capacity

theorem Slots.sizeExact_iff (first capacity dataSize : Nat) :
    SizeExact first capacity dataSize
        (wrappingAdd first (calculateRequiredSize capacity dataSize)) ↔
      SizeFits first capacity dataSize := by
  constructor
  · rintro ⟨stride, slots, total⟩
    rw [slots] at total
    exact ⟨(wrappingAdd_eq_iff ..).mp stride, (wrappingAdd_eq_iff ..).mp total⟩
  · rintro ⟨stride, total⟩
    have exact_stride := (wrappingAdd_eq_iff ..).mpr stride
    have slots : calculateRequiredSize capacity dataSize =
        (slotMetadataSize + dataSize) * capacity := by
      simp only [calculateRequiredSize, exact_stride]
      exact (wrappingMul_eq_iff ..).mpr ((Nat.le_add_left ..).trans_lt total)
    refine ⟨exact_stride, slots, ?_⟩
    rw [slots]
    exact (wrappingAdd_eq_iff ..).mpr total

/-- The size of an index block with its buckets. -/
structure Index.SizeExact (capacity nodeSize total : Nat) : Prop where
  buckets : totalBucketsSize capacity = bucketSize * InMemoryTable.totalBuckets capacity
  slots : Slots.SizeExact (bucketSize * InMemoryTable.totalBuckets capacity) capacity nodeSize total

theorem Index.sizeExact_iff (capacity nodeSize : Nat) :
    SizeExact capacity nodeSize (totalSize capacity nodeSize) ↔
      Slots.SizeFits (bucketSize * InMemoryTable.totalBuckets capacity) capacity nodeSize := by
  constructor
  · rintro ⟨buckets, slots⟩
    rw [totalSize, buckets] at slots
    exact (Slots.sizeExact_iff ..).mp slots
  · intro fits
    have buckets : totalBucketsSize capacity = bucketSize * InMemoryTable.totalBuckets capacity :=
      (wrappingMul_eq_iff ..).mpr ((Nat.le_add_right ..).trans_lt fits.total)
    refine ⟨buckets, ?_⟩
    rw [totalSize, buckets]
    exact (Slots.sizeExact_iff ..).mpr fits

/-- A creation asks for exact sizes iff those of the blocks that it gets as far
as allocating are numbers of 64 bits. -/
theorem create_sizes_exact_iff (platform : Platform B) (layout : NodeLayout K B) (hasher : K → Nat)
    (faults : Action → Option Errno) (kernel : Kernel B) (name : String)
    (capacity recordSize : Nat) :
    (∀ fd length, (fd, length) ∈ kernel.allocations platform faults
        (SharedTable.createWithSize platform layout hasher name capacity recordSize) →
      (fd = kernel.nextObject → Slots.SizeExact tableHeaderSize capacity recordSize length) ∧
      (fd = kernel.nextObject + 1 → Index.SizeExact capacity layout.size length)) ↔
    (Block.Opens faults kernel name → Slots.SizeFits tableHeaderSize capacity recordSize) ∧
      (SharedTable.ReachesIndex platform faults kernel name capacity recordSize →
        Slots.SizeFits (bucketSize * totalBuckets capacity) capacity layout.size) := by
  have asked := @SharedTable.create_allocations K B name capacity recordSize platform layout hasher
    faults kernel
  constructor
  · intro all
    constructor
    · intro opens
      have data := (all _ _ ((asked _ _).mpr (.inl ⟨opens, rfl, rfl⟩))).1 rfl
      exact (Slots.sizeExact_iff ..).mp data
    · intro reaches
      have index := (all _ _ ((asked _ _).mpr (.inr ⟨reaches, rfl, rfl⟩))).2 rfl
      exact (Index.sizeExact_iff ..).mp index
  · rintro ⟨data, index⟩ fd length member
    rcases (asked _ _).mp member with ⟨opens, rfl, rfl⟩ | ⟨reaches, rfl, rfl⟩
    · exact ⟨fun _ => (Slots.sizeExact_iff ..).mpr (data opens), fun same => absurd same (by omega)⟩
    · exact ⟨fun same => absurd same (by omega),
        fun _ => (Index.sizeExact_iff ..).mpr (index reaches)⟩

/-- For 2^60 records without data the creation asks for 16 bytes. -/
theorem create_size_wraps :
    (0, 16) ∈ (Kernel.empty .sample).allocations .sample (fun _ => none)
      (SharedTable.createWithSize .sample (.cell UInt8) UInt8.toNat "t" 1152921504606846976 0) ∧
    ¬ ∀ fd length, (fd, length) ∈ (Kernel.empty .sample).allocations .sample (fun _ => none)
        (SharedTable.createWithSize .sample (.cell UInt8) UInt8.toNat "t" 1152921504606846976 0) →
      fd = 0 → Slots.SizeExact tableHeaderSize 1152921504606846976 0 length := by
  have asked : (0, 16) ∈ (Kernel.empty .sample).allocations .sample (fun _ => none)
      (SharedTable.createWithSize .sample (.cell UInt8) UInt8.toNat "t" 1152921504606846976 0) := by
    refine (SharedTable.create_allocations ..).mpr (.inl ⟨⟨by decide, rfl, rfl⟩, rfl, ?_⟩)
    decide +kernel
  refine ⟨asked, fun sizes => ?_⟩
  have size := sizes 0 16 asked rfl
  exact absurd size.total (by decide)

end InMemoryTable
