import InMemoryTable.Constructors

/-! The four resources of a table, as completed calls of `create`, `open` and
`destroy` make, find and remove them when nothing else disturbs them. -/
namespace InMemoryTable
open Program

variable {K B : Type} {platform : Platform B} {layout : NodeLayout K B} {hasher : K → Nat}
  {kernel : Kernel B} {name : String} {table : SharedTable K B}

/-- No call fails but for what exists. -/
def noFault : Action → Option Errno := fun _ => none

namespace Kernel

/-- A program that runs alone and undisturbed. -/
def runs {α : Type} (platform : Platform B) (kernel : Kernel B) (call : Call α) :
    Except InMemoryTableError α × Kernel B :=
  call.program.run (platform.exec noFault) kernel

theorem exec_nextObject (faults : Action → Option Errno) (kernel : Kernel B) (action : Action) :
    kernel.nextObject ≤ (platform.exec faults kernel action).2.nextObject := by
  have fault : ∀ {α : Type} (errno : Option Errno) (done : Except Errno α × Kernel B),
      kernel.nextObject ≤ done.2.nextObject →
      kernel.nextObject ≤ (kernel.orFault errno done).2.nextObject := by
    intro α errno done later
    cases errno with
    | none => exact later
    | some errno => exact Nat.le_refl _
  cases action <;> try exact Nat.le_refl _
  case shmOpenNew name =>
    apply fault
    rw [shmOpenNew]
    split
    · exact Nat.le_refl _
    · exact Nat.le_succ _
  case shmUnlink name =>
    simp only [Platform.exec, shmUnlink]
    split <;> exact Nat.le_refl _
  case semctlRmid semId =>
    simp only [Platform.exec, semctlRmid]
    split <;> exact Nat.le_refl _
  all_goals
    apply fault
  case shmOpen name =>
    rw [shmOpen]
    split <;> exact Nat.le_refl _
  case ftruncate fd length =>
    rw [ftruncate]
    split <;> exact Nat.le_refl _
  case fstat fd => exact Nat.le_refl _
  case mmap fd length =>
    rw [mmap]
    split <;> exact Nat.le_refl _
  case semgetNew key nsems =>
    obtain ⟨errno, failed⟩ | ⟨size, -, -, -, -, created⟩ := kernel.semgetNew_cases platform key nsems
    · rw [failed]
    · rw [created]
      exact Nat.le_refl _
  case semget key nsems =>
    rw [semget]
    repeat' split
    all_goals exact Nat.le_refl _
  case semop semId semNum =>
    unfold semop
    repeat' split
    all_goals exact Nat.le_refl _

/-- No object is ever forgotten. -/
theorem runs_nextObject {α : Type} (platform : Platform B) (kernel : Kernel B) (call : Call α) :
    kernel.nextObject ≤ (kernel.runs platform call).2.nextObject :=
  run_preserves (P := fun later => kernel.nextObject ≤ later.nextObject) (platform.exec noFault)
    (fun later action held => held.trans (exec_nextObject noFault later action)) call.program
    (Nat.le_refl _)

end Kernel

/-! ### Opening and destroying -/

theorem Block.openExisting_cases (platform : Platform B) (kernel : Kernel B) (name : String) :
    (∃ e, kernel.runs platform (Block.openExisting platform name) = (.error e, kernel)) ∨
      ∃ block, kernel.runs platform (Block.openExisting platform name) = (.ok block, kernel) ∧
        block.name = name ∧ kernel.names name = some block.fd ∧
        block.ptr = pageSize * platform.page block.fd := by
  by_cases noNul : Char.ofNat 0 ∈ name.toList
  · have invalid : (ofExcept (cString name) : Call String).program.run (platform.exec noFault)
        kernel = (.error (.invalidName name), kernel) := by
      simp [cString, noNul, Program.ofExcept, Program.run]
    refine .inl ⟨.invalidName name, ?_⟩
    rw [Kernel.runs, openExisting, run_error _ invalid]
  rw [Kernel.runs, openExisting, run_ofExcept _ (show cString name = .ok name by simp [cString, noNul])]
  cases named : kernel.names name with
  | none =>
    refine .inl ⟨.fromShmError platform.nixText .enoent name, ?_⟩
    simp [Platform.exec, noFault, Kernel.orFault, Kernel.shmOpen, named]
  | some fd =>
    by_cases nonempty : (kernel.objects fd).size = 0
    · refine .inl ⟨.shmMappingFailed, ?_⟩
      simp [Platform.exec, noFault, Kernel.orFault, Kernel.shmOpen, named, mmapOpen, Kernel.mmap,
        nonempty]
    · refine .inr ⟨⟨name, pageSize * platform.page fd, (kernel.objects fd).size, fd⟩, ?_, rfl, rfl, rfl⟩
      simp [Platform.exec, noFault, Kernel.orFault, Kernel.shmOpen, named, mmapOpen, Kernel.mmap,
        nonempty]

theorem SemaphoreSet.openExisting_cases (platform : Platform B) (kernel : Kernel B)
    (name : String) (numRecords : Nat) :
    (∃ e, kernel.runs platform (SemaphoreSet.openExisting platform name numRecords) =
      (.error e, kernel)) ∨
      ∃ semaphores, kernel.runs platform (SemaphoreSet.openExisting platform name numRecords) =
        (.ok semaphores, kernel) ∧
        kernel.keys (generateSemKey name) = some semaphores.semId := by
  obtain ⟨errno, failed⟩ | ⟨semId, keyed, found⟩ :=
    kernel.semget_cases platform (generateSemKey name) (asI32 (stripesFor numRecords))
  · refine .inl ⟨.fromSemgetError platform.osText errno (generateSemKey name).toInt name
      (stripesFor numRecords), ?_⟩
    rw [Kernel.runs, openExisting, run_reply _ ((exec_semget rfl).trans failed)]
    rfl
  · refine .inr ⟨.ofRecords semId numRecords, ?_, keyed⟩
    rw [Kernel.runs, openExisting, run_reply _ ((exec_semget rfl).trans found)]
    rfl

/-- The four resources of a table. -/
inductive Resource where
  | block
  | semaphores
  | indexBlock
  | indexSemaphores

/-- The object or set behind a resource. -/
def Kernel.resource (kernel : Kernel B) (name : String) : Resource → Option Nat
  | .block => kernel.names name
  | .semaphores => kernel.keys (SemaphoreSet.generateSemKey name)
  | .indexBlock => kernel.names (indexName name)
  | .indexSemaphores => kernel.keys (SemaphoreSet.generateSemKey (indexName name))

/-- The resources that a handle refers to. -/
def SharedTable.resource (table : SharedTable K B) : Resource → Nat
  | .block => table.block.fd
  | .semaphores => table.semaphores.semId
  | .indexBlock => table.primaryKeys.block.fd
  | .indexSemaphores => table.primaryKeys.semaphores.semId

/-- The handle refers to what is there. -/
def SharedTable.Current (table : SharedTable K B) (name : String) (kernel : Kernel B) : Prop :=
  ∀ r, kernel.resource name r = some (table.resource r)

theorem SharedIndex.openExisting_cases (platform : Platform B) (layout : NodeLayout K B)
    (hasher : K → Nat) (kernel : Kernel B) (name : String) (size : Nat) :
    (∃ e, kernel.runs platform (openExisting platform layout hasher name size) =
      (.error e, kernel)) ∨
      ∃ index, kernel.runs platform (openExisting platform layout hasher name size) =
        (.ok index, kernel) ∧ index.block.name = indexName name ∧
        kernel.names (indexName name) = some index.block.fd ∧
        kernel.keys (SemaphoreSet.generateSemKey (indexName name)) =
          some index.semaphores.semId := by
  obtain ⟨e, failed⟩ | ⟨block, opened, blockName, named, ptr⟩ :=
    Block.openExisting_cases platform kernel (indexName name)
  · refine .inl ⟨e, ?_⟩
    rw [Kernel.runs, openExisting, run_error _ failed]
  have aligned : checkAligned block.ptr headerAlignment = .ok () := ptr ▸ checkAligned_page _
  have slotsAligned : checkAligned (block.ptr + Index.totalBucketsSize size) headerAlignment =
      .ok () := ptr ▸ checkAligned_nodes _ _
  obtain ⟨e, failed⟩ | ⟨semaphores, found, keyed⟩ :=
    SemaphoreSet.openExisting_cases platform kernel (indexName name) 0
  · refine .inl ⟨e, ?_⟩
    rw [Kernel.runs, openExisting, run_ok _ opened, run_ofExcept _ aligned,
      run_ofExcept _ slotsAligned, run_error _ failed]
  · refine .inr ⟨⟨block, .handle layout hasher size, semaphores⟩, ?_, blockName, named, keyed⟩
    rw [Kernel.runs, openExisting, run_ok _ opened, run_ofExcept _ aligned,
      run_ofExcept _ slotsAligned, run_ok _ found]
    rfl

/-- Opening changes nothing; a handle refers to what is there. -/
theorem SharedTable.openExisting_cases (platform : Platform B) (layout : NodeLayout K B)
    (hasher : K → Nat) (kernel : Kernel B) (name : String) :
    (∃ e, kernel.runs platform (openExisting platform layout hasher name) = (.error e, kernel)) ∨
      ∃ table, kernel.runs platform (openExisting platform layout hasher name) =
        (.ok table, kernel) ∧ table.block.name = name ∧
        table.primaryKeys.block.name = indexName name ∧ table.Current name kernel := by
  obtain ⟨e, failed⟩ | ⟨block, opened, blockName, named, ptr⟩ :=
    Block.openExisting_cases platform kernel name
  · refine .inl ⟨e, ?_⟩
    rw [Kernel.runs, openExisting, run_error _ failed]
  have aligned : checkAligned block.ptr headerAlignment = .ok () := ptr ▸ checkAligned_page _
  have slotsAligned : checkAligned (Header.data block.ptr tableHeaderSize) headerAlignment =
      .ok () := ptr ▸ checkAligned_slots _
  have valid : platform.exec noFault kernel (.isValid block.fd) =
      ((kernel.objects block.fd).memory.header.isValid, kernel) := rfl
  have capacity : platform.exec noFault kernel (.readCapacity block.fd) =
      ((kernel.objects block.fd).memory.header.capacity, kernel) := rfl
  cases isValid : (kernel.objects block.fd).memory.header.isValid with
  | false =>
    refine .inl ⟨.notInitialized, ?_⟩
    rw [Kernel.runs, openExisting, run_ok _ opened, run_ofExcept _ aligned,
      run_ofExcept _ aligned, run_reply _ valid, isValid]
    rfl
  | true =>
    have start : kernel.runs platform (openExisting platform layout hasher name) =
        (do
          let semaphores ← SemaphoreSet.openExisting platform name
            (kernel.objects block.fd).memory.header.capacity
          let capacity ← perform (.readCapacity block.fd)
          let primaryKeys ← SharedIndex.openExisting platform layout hasher name capacity
          pure { block, semaphores, primaryKeys } : Call (SharedTable K B)).program.run
          (platform.exec noFault) kernel := by
      rw [Kernel.runs, openExisting, run_ok _ opened, run_ofExcept _ aligned,
        run_ofExcept _ aligned, run_reply _ valid, isValid]
      simp only [Bool.not_true, Bool.false_eq_true, if_false]
      rw [run_ofExcept _ slotsAligned, run_reply _ capacity]
    rw [start]
    obtain ⟨e, failed⟩ | ⟨semaphores, found, keyed⟩ := SemaphoreSet.openExisting_cases platform
      kernel name (kernel.objects block.fd).memory.header.capacity
    · exact .inl ⟨e, by rw [run_error _ failed]⟩
    rw [run_ok _ found, run_reply _ capacity]
    obtain ⟨e, failed⟩ | ⟨index, indexOpened, indexName, indexNamed, indexKeyed⟩ :=
      SharedIndex.openExisting_cases platform layout hasher kernel name
        (kernel.objects block.fd).memory.header.capacity
    · exact .inl ⟨e, by rw [run_error _ failed]⟩
    · rw [run_ok _ indexOpened]
      refine .inr ⟨⟨block, semaphores, index⟩, rfl, blockName, indexName, fun r => ?_⟩
      cases r with
      | block => exact named
      | semaphores => exact keyed
      | indexBlock => exact indexNamed
      | indexSemaphores => exact indexKeyed

theorem Block.destroy_cases (platform : Platform B) (kernel : Kernel B) (self : Block) :
    (kernel.names self.name = none ∧
      ∃ e, kernel.runs platform (self.destroy platform) = (.error e, kernel)) ∨
    (kernel.names self.name ≠ none ∧
      kernel.runs platform (self.destroy platform) = (.ok (), kernel.removeName self.name)) := by
  cases named : kernel.names self.name with
  | none =>
    refine .inl ⟨rfl, .shmError ("shm_unlink failed: " ++ platform.nixText .enoent), ?_⟩
    simp [Kernel.runs, destroy, Platform.exec, Kernel.shmUnlink, named]
  | some object =>
    refine .inr ⟨by simp, ?_⟩
    simp [Kernel.runs, destroy, Platform.exec, Kernel.shmUnlink, named]

theorem SemaphoreSet.destroy_cases (platform : Platform B) (kernel : Kernel B)
    (self : SemaphoreSet) :
    (kernel.sets self.semId = none ∧
      ∃ e, kernel.runs platform (self.destroy platform) = (.error e, kernel)) ∨
    (kernel.sets self.semId ≠ none ∧
      kernel.runs platform (self.destroy platform) = (.ok (), kernel.removeSet self.semId)) := by
  cases found : kernel.sets self.semId with
  | none =>
    refine .inl ⟨rfl, .semaphoreError ("semctl IPC_RMID failed: " ++ platform.osText .einval), ?_⟩
    simp [Kernel.runs, destroy, Platform.exec, Kernel.semctlRmid, found]
  | some set =>
    refine .inr ⟨by simp, ?_⟩
    simp [Kernel.runs, destroy, Platform.exec, Kernel.semctlRmid, found]

namespace SharedTable

/-- The handle names its blocks as its table was named. -/
structure Named (table : SharedTable K B) (name : String) : Prop where
  block : table.block.name = name
  indexBlock : table.primaryKeys.block.name = indexName name

theorem destroy_absent (named : table.Named name) (absent : kernel.names name = none) :
    (kernel.runs platform (table.destroy platform)).2 = kernel := by
  obtain ⟨-, e, failed⟩ | ⟨present, -⟩ := Block.destroy_cases platform kernel table.block
  · rw [Kernel.runs, destroy, run_error _ failed]
  · rw [named.block] at present
    exact absurd absent present

/-- Whatever its handle was, the name is gone. -/
theorem destroy_names (platform : Platform B) (kernel : Kernel B)
    (named : table.Named name) :
    (kernel.runs platform (table.destroy platform)).2.names name = none := by
  obtain ⟨absent, e, failed⟩ | ⟨-, unlinked⟩ := Block.destroy_cases platform kernel table.block
  · rw [named.block] at absent
    rw [Kernel.runs, destroy, run_error _ failed]
    exact absent
  rw [named.block] at unlinked
  have gone : (kernel.removeName name).names name = none := Function.update_self ..
  generalize kernel.removeName name = kernel₁ at unlinked gone
  rw [Kernel.runs, destroy, run_ok _ unlinked]
  obtain ⟨-, e, failed⟩ | ⟨-, removed⟩ := SemaphoreSet.destroy_cases platform kernel₁ table.semaphores
  · rw [run_error _ failed]
    exact gone
  have gone : (kernel₁.removeSet table.semaphores.semId).names name = none := gone
  generalize kernel₁.removeSet table.semaphores.semId = kernel₂ at removed gone
  rw [run_ok _ removed, SharedIndex.destroy]
  obtain ⟨-, e, failed⟩ | ⟨-, unlinked⟩ :=
    Block.destroy_cases platform kernel₂ table.primaryKeys.block
  · rw [run_error _ failed]
    exact gone
  have gone : (kernel₂.removeName table.primaryKeys.block.name).names name = none := by
    rw [named.indexBlock]
    exact (Function.update_of_ne (indexName_ne name).symm ..).trans gone
  generalize kernel₂.removeName table.primaryKeys.block.name = kernel₃ at unlinked gone
  rw [run_ok _ unlinked]
  obtain ⟨-, e, failed⟩ | ⟨-, removed⟩ :=
    SemaphoreSet.destroy_cases platform kernel₃ table.primaryKeys.semaphores
  · exact (congrArg (·.2.names name) failed).trans gone
  · exact (congrArg (·.2.names name) removed).trans gone

theorem sets_of_keys {key : Int32} {semId : Nat} (keyed : kernel.keys key = some semId) :
    kernel.sets semId ≠ none := by
  have live := kernel.live keyed
  intro absent
  simp [absent] at live

/-- The last step removes what is left of the index semaphores. -/
theorem destroy_keys (semaphores : SemaphoreSet) {key : Int32}
    (keyed : kernel.keys key = none ∨ kernel.keys key = some semaphores.semId) :
    (kernel.runs platform (semaphores.destroy platform)).2.keys key = none := by
  obtain ⟨removed, e, failed⟩ | ⟨-, destroyed⟩ :=
    SemaphoreSet.destroy_cases platform kernel semaphores
  · rw [failed]
    rcases keyed with absent | keyed
    · exact absent
    · exact absurd removed (sets_of_keys keyed)
  · rw [destroyed]
    rcases keyed with absent | keyed
    · simp [Kernel.removeSet, absent]
    · simp [Kernel.removeSet, keyed]

theorem runs_names (semaphores : SemaphoreSet) :
    (kernel.runs platform (semaphores.destroy platform)).2.names = kernel.names := by
  obtain ⟨-, e, failed⟩ | ⟨-, destroyed⟩ := SemaphoreSet.destroy_cases platform kernel semaphores
  · rw [failed]
  · rw [destroyed]
    rfl

theorem runs_keys_none (semaphores : SemaphoreSet) {key : Int32} (absent : kernel.keys key = none) :
    (kernel.runs platform (semaphores.destroy platform)).2.keys key = none :=
  destroy_keys semaphores (.inl absent)

/-- The handle of the table that is there removes all of it. -/
theorem destroy_current (platform : Platform B) (named : table.Named name)
    (current : table.Current name kernel) (r : Resource) :
    (kernel.runs platform (table.destroy platform)).2.resource name r = none := by
  have block : kernel.names name = some table.block.fd := current .block
  have semaphores : kernel.keys (SemaphoreSet.generateSemKey name) =
      some table.semaphores.semId := current .semaphores
  have indexBlock : kernel.names (indexName name) = some table.primaryKeys.block.fd :=
    current .indexBlock
  have indexSemaphores : kernel.keys (SemaphoreSet.generateSemKey (indexName name)) =
      some table.primaryKeys.semaphores.semId := current .indexSemaphores
  obtain ⟨absent, -⟩ | ⟨-, unlinked⟩ := Block.destroy_cases platform kernel table.block
  · rw [named.block, block] at absent
    contradiction
  obtain ⟨absent, -⟩ | ⟨-, removed⟩ := SemaphoreSet.destroy_cases platform
    (kernel.removeName table.block.name) table.semaphores
  · exact absurd absent (sets_of_keys semaphores)
  have indexNamed : (kernel.removeName table.block.name).names (indexName name) =
      some table.primaryKeys.block.fd := by
    rw [named.block]
    exact (Function.update_of_ne (indexName_ne name) ..).trans indexBlock
  obtain ⟨absent, -⟩ | ⟨-, indexUnlinked⟩ := Block.destroy_cases platform
    ((kernel.removeName table.block.name).removeSet table.semaphores.semId) table.primaryKeys.block
  · rw [named.indexBlock] at absent
    exact absurd (absent.symm.trans indexNamed) (by simp)
  let remaining := ((kernel.removeName table.block.name).removeSet
    table.semaphores.semId).removeName table.primaryKeys.block.name
  have names : remaining.names name = none ∧ remaining.names (indexName name) = none := by
    simp only [remaining, named.block, named.indexBlock]
    refine ⟨(Function.update_of_ne (indexName_ne name).symm ..).trans ?_, Function.update_self ..⟩
    exact Function.update_self ..
  have key : remaining.keys (SemaphoreSet.generateSemKey name) = none := if_pos semaphores
  have indexKey : remaining.keys (SemaphoreSet.generateSemKey (indexName name)) = none ∨
      remaining.keys (SemaphoreSet.generateSemKey (indexName name)) =
        some table.primaryKeys.semaphores.semId := by
    by_cases shared : table.primaryKeys.semaphores.semId = table.semaphores.semId
    · exact .inl (if_pos (shared ▸ indexSemaphores))
    · refine .inr ((if_neg ?_).trans indexSemaphores)
      intro same
      exact shared (Option.some.inj (indexSemaphores.symm.trans same))
  have destroyed : (kernel.runs platform (table.destroy platform)).2 =
      (remaining.runs platform (table.primaryKeys.semaphores.destroy platform)).2 := by
    rw [Kernel.runs, destroy, run_ok _ unlinked, run_ok _ removed, SharedIndex.destroy,
      run_ok _ indexUnlinked]
    rfl
  rw [destroyed]
  cases r with
  | block => exact (congrFun (runs_names _) _).trans names.1
  | semaphores => exact runs_keys_none _ key
  | indexBlock => exact (congrFun (runs_names _) _).trans names.2
  | indexSemaphores => exact destroy_keys _ indexKey

/-- No argument makes a call of the creation fail. -/
structure Fits (platform : Platform B) (layout : NodeLayout K B) (name : String)
    (capacity recordSize : Nat) : Prop where
  block : ∀ fd, BlockGranted noFault fd name capacity recordSize
  semaphores : ∀ semId, SemaphoreSet.Granted platform noFault semId name capacity
  indexBlock : ∀ fd, SharedIndex.BlockGranted noFault layout fd name capacity
  indexSemaphores : ∀ semId, SemaphoreSet.Granted platform noFault semId (indexName name) 0

theorem indexName_noNul (noNul : Char.ofNat 0 ∉ name.toList) :
    Char.ofNat 0 ∉ (indexName name).toList := by
  have suffix : Char.ofNat 0 ∉ "_pk".toList := by decide
  rw [indexName, String.toList_append, List.mem_append, not_or]
  exact ⟨noNul, suffix⟩

variable {capacity recordSize : Nat}

/-- A size that `ftruncate` and `mmap` take. -/
def Mappable (totalSize : Nat) : Prop := 0 ≤ asI64 totalSize ∧ totalSize ≠ 0

theorem sample_fits {layout : NodeLayout K (Node UInt8)} (noNul : Char.ofNat 0 ∉ name.toList)
    (block : Mappable (Table.calculateTotalSize capacity recordSize))
    (indexBlock : Mappable (Index.totalSize capacity layout.size))
    (few : SemaphoreSet.stripesFor capacity ≤ 32000) :
    Fits .sample layout name capacity recordSize where
  block _ := ⟨noNul, rfl, rfl, block.1, rfl, block.2⟩
  semaphores _ := ⟨few, rfl, fun _ _ => rfl⟩
  indexBlock _ := ⟨indexName_noNul noNul, rfl, rfl, indexBlock.1, rfl, indexBlock.2⟩
  indexSemaphores _ := ⟨by decide, rfl, fun _ _ => rfl⟩

/-- Tables of one record fit. -/
theorem sample_fits_one (noNul : Char.ofNat 0 ∉ name.toList) :
    Fits .sample (.cell UInt8) name 1 1 :=
  sample_fits noNul (by unfold Mappable; decide +kernel) (by unfold Mappable; decide +kernel)
    (by decide +kernel)

/-- What a new table is made of when the keys of its semaphore sets differ. -/
theorem create_distinct (hasher : K → Nat) (absent : ∀ r, kernel.resource name r = none)
    (fits : Fits platform layout name capacity recordSize)
    (different : SemaphoreSet.generateSemKey (indexName name) ≠ SemaphoreSet.generateSemKey name) :
    ∃ table after, kernel.runs platform
        (createWithSize platform layout hasher name capacity recordSize) = (.ok table, after) ∧
      table.Named name ∧ table.block.fd = kernel.nextObject ∧ table.Current name after := by
  have created := create_ok hasher (absent .block) (fits.block _)
    ⟨absent .semaphores, fits.semaphores _, absent .indexBlock, fits.indexBlock _,
      absent .indexSemaphores, different, fits.indexSemaphores _⟩
  refine ⟨_, _, created, ⟨rfl, rfl⟩, rfl, fun r => ?_⟩
  cases r with
  | block =>
    exact (Function.update_of_ne (indexName_ne name).symm ..).trans (withSemaphores_names ..)
  | semaphores => exact (Function.update_of_ne different.symm ..).trans (withSemaphores_keys_self ..)
  | indexBlock => exact Function.update_self ..
  | indexSemaphores => exact Function.update_self ..

/-- With one key for both sets the creation fails at the second, and that set is
the one of the index as well. -/
theorem create_collision (hasher : K → Nat) (absent : ∀ r, kernel.resource name r = none)
    (fits : Fits platform layout name capacity recordSize)
    (same : SemaphoreSet.generateSemKey (indexName name) = SemaphoreSet.generateSemKey name) :
    ∃ e after, kernel.runs platform
        (createWithSize platform layout hasher name capacity recordSize) = (.error e, after) ∧
      after.names name = some kernel.nextObject ∧ ∀ r, after.resource name r ≠ none := by
  generalize entered : withSemaphores platform name capacity recordSize kernel = before
  have named : before.names name = some kernel.nextObject := entered ▸ withSemaphores_names ..
  have indexFree : before.names (indexName name) = none :=
    entered ▸ (withSemaphores_names_index ..).trans (absent .indexBlock)
  have keyed : before.keys (SemaphoreSet.generateSemKey name) = some kernel.nextSet :=
    entered ▸ withSemaphores_keys_self ..
  have indexKeyed : before.keys (SemaphoreSet.generateSemKey (indexName name)) =
      some kernel.nextSet := same ▸ keyed
  have taken : ¬ (before.keys (SemaphoreSet.generateSemKey (indexName name)) = none ∧
      SemaphoreSet.Granted platform noFault before.nextSet (indexName name) 0) := by
    rw [indexKeyed]
    simp
  obtain ⟨e, after, ran, left⟩ :=
    SharedIndex.new_error_semaphores hasher indexFree (fits.indexBlock _) taken
  have created : kernel.runs platform
      (createWithSize platform layout hasher name capacity recordSize) = (.error e, after) := by
    rw [Kernel.runs, create_semaphores (absent .block) (fits.block _) (absent .semaphores)
      (fits.semaphores _), entered, run_error _ ran]
  have names := (Prod.mk.inj left).1
  have keys := (Prod.mk.inj (Prod.mk.inj left).2).1
  have block : after.names name = some kernel.nextObject := by
    rw [names]
    exact (Function.update_of_ne (indexName_ne name).symm ..).trans named
  refine ⟨e, after, created, block, fun r => ?_⟩
  cases r with
  | block => exact Option.ne_none_iff_exists'.mpr ⟨_, block⟩
  | semaphores => exact Option.ne_none_iff_exists'.mpr ⟨_, (congrFun keys _).trans keyed⟩
  | indexBlock =>
    have indexNamed : after.names (indexName name) = some before.nextObject := by
      rw [names]
      exact Function.update_self ..
    exact Option.ne_none_iff_exists'.mpr ⟨_, indexNamed⟩
  | indexSemaphores =>
    exact Option.ne_none_iff_exists'.mpr ⟨_, (congrFun keys _).trans indexKeyed⟩

end SharedTable

end InMemoryTable
