import InMemoryTable.Library.Contract
import InMemoryTable.Resources
import Mathlib.Data.Set.Basic

/-! What `create_with_size`, `open` and `destroy` act on. A process starts with the
names of its table and their keys; the calls of the operating system give it the
objects and sets behind them, and it acts on nothing else. -/
namespace InMemoryTable
open Program

variable {K B : Type}

inductive Capability where
  | name (name : ShmName)
  | key (key : Int32)
  | object (fd : Nat)
  | set (semId : Nat)
  deriving DecidableEq

namespace Action

/-- What a call acts on. -/
def uses : Action → Capability
  | shmOpenNew name | shmOpen name | shmUnlink name => .name name
  | ftruncate fd _ | fstat fd | mmap fd _ | writeBytes fd _ | writeHeader fd _ | slotsNew fd _ _
  | indexSlotsNew fd _ _ | isValid fd | readCapacity fd => .object fd
  | semgetNew key _ | semget key _ => .key key
  | semop semId _ | semctlRmid semId => .set semId

/-- What the reply to a call hands over. -/
def grants : (action : Action) → action.Reply → Set Capability
  | shmOpenNew _, .ok fd | shmOpen _, .ok fd => {.object fd}
  | semgetNew _ _, .ok semId | semget _ _, .ok semId => {.set semId}
  | _, _ => ∅

end Action

/-- Calls on what is held; what is granted is held from then on. -/
def holding : Contract Action Action.Reply (Set Capability) where
  allows held action := action.uses ∈ held
  learns held action reply later := held ⊆ later ∧ action.grants reply ⊆ later

/-- The block or semaphores, names included, that a table of that name consists of. -/
def Capability.own (name : String) : Set Capability :=
  {.name name, .name (indexName name), .key (SemaphoreSet.generateSemKey name),
    .key (SemaphoreSet.generateSemKey (indexName name))}

section Own
variable (name : String)

theorem Capability.own_name : .name name ∈ own name := .inl rfl

theorem Capability.own_indexName : .name (indexName name) ∈ own name := .inr (.inl rfl)

theorem Capability.own_key : .key (SemaphoreSet.generateSemKey name) ∈ own name :=
  .inr (.inr (.inl rfl))

theorem Capability.own_indexKey : .key (SemaphoreSet.generateSemKey (indexName name)) ∈ own name :=
  .inr (.inr (.inr rfl))

end Own

/-- What a handle gives access to. -/
structure Block.Held (block : Block) (held : Set Capability) : Prop where
  name : .name block.name ∈ held
  object : .object block.fd ∈ held

structure SharedTable.Held (table : SharedTable K B) (held : Set Capability) : Prop where
  block : table.block.Held held
  semaphores : .set table.semaphores.semId ∈ held
  indexBlock : table.primaryKeys.block.Held held
  indexSemaphores : .set table.primaryKeys.semaphores.semId ∈ held

variable {held later : Set Capability} {name : String}

theorem Block.Held.mono {block : Block} (holds : block.Held held) (more : held ⊆ later) :
    block.Held later :=
  ⟨more holds.name, more holds.object⟩

theorem SharedTable.Held.mono {table : SharedTable K B} (holds : table.Held held)
    (more : held ⊆ later) : table.Held later :=
  ⟨holds.block.mono more, more holds.semaphores, holds.indexBlock.mono more,
    more holds.indexSemaphores⟩

/-! ### Each program in turn -/

section Programs
variable (platform : Platform B)

theorem cString_eq {shmName : String} (valid : cString name = .ok shmName) : shmName = name := by
  rw [cString] at valid
  split at valid <;> cases valid
  rfl

theorem Block.new_keeps {totalSize : Nat} (named : .name name ∈ held)
    {post : Except InMemoryTableError Block → Set Capability → Prop}
    (ok : ∀ block later, held ⊆ later → block.Held later → post (.ok block) later)
    (error : ∀ e later, held ⊆ later → post (.error e) later) :
    (Block.new platform name totalSize).program.Keeps holding held post := by
  refine .ofExcept ?_ (fun e => error e held Set.Subset.rfl)
  intro shmName valid
  cases cString_eq valid
  refine .perform named ?_
  rintro (e | fd) opened ⟨more, granted⟩
  · exact .throw (error _ _ more)
  · have object : .object fd ∈ opened := granted rfl
    refine .perform object ?_
    rintro (e | ⟨⟩) resized ⟨more', -⟩
    · refine .perform (more' (more named)) ?_
      rintro _ later ⟨more'', -⟩
      exact .throw (error _ _ (more.trans (more'.trans more'')))
    · simp only [mmapOpen, fallible_assoc]
      refine .perform (more' object) ?_
      rintro (e | ptr) mapped ⟨more'', -⟩
      · refine .perform (more'' (more' (more named))) ?_
        rintro _ later ⟨last, -⟩
        exact .throw (error _ _ (more.trans (more'.trans (more''.trans last))))
      · refine .perform (more'' (more' object)) ?_
        rintro _ later ⟨last, -⟩
        have all : opened ⊆ later := more'.trans (more''.trans last)
        exact .pure (ok _ _ (more.trans all) ⟨all (more named), all object⟩)

theorem Block.openExisting_keeps (named : .name name ∈ held)
    {post : Except InMemoryTableError Block → Set Capability → Prop}
    (ok : ∀ block later, held ⊆ later → block.Held later → post (.ok block) later)
    (error : ∀ e later, held ⊆ later → post (.error e) later) :
    (Block.openExisting platform name).program.Keeps holding held post := by
  refine .ofExcept ?_ (fun e => error e held Set.Subset.rfl)
  intro shmName valid
  cases cString_eq valid
  refine .perform named ?_
  rintro (e | fd) opened ⟨more, granted⟩
  · exact .throw (error _ _ more)
  · have object : .object fd ∈ opened := granted rfl
    refine .perform object ?_
    rintro (e | size) known ⟨more', -⟩
    · exact .throw (error _ _ (more.trans more'))
    · simp only [mmapOpen, fallible_assoc]
      refine .perform (more' object) ?_
      rintro (e | ptr) later ⟨last, -⟩
      · exact .throw (error _ _ (more.trans (more'.trans last)))
      · have all : opened ⊆ later := more'.trans last
        exact .pure (ok _ _ (more.trans all) ⟨all (more named), all object⟩)

theorem Block.destroy_keeps {block : Block} (holds : block.Held held)
    {post : Except InMemoryTableError Unit → Set Capability → Prop}
    (finished : ∀ result later, held ⊆ later → post result later) :
    (block.destroy platform).program.Keeps holding held post := by
  refine .perform holds.name ?_
  rintro (e | ⟨⟩) later ⟨more, -⟩
  · exact .throw (finished _ _ more)
  · exact .pure (finished _ _ more)

theorem semReset_keeps {semId size : Nat} (set : .set semId ∈ held)
    {post : Except InMemoryTableError Unit → Set Capability → Prop}
    (finished : ∀ result later, held ⊆ later → post result later) (position remaining : Nat) :
    (semReset semId size position remaining).program.Keeps holding held post := by
  induction remaining generalizing held position with
  | zero => exact .pure (finished _ _ Set.Subset.rfl)
  | succ remaining ih =>
    refine .perform set ?_
    rintro (e | ⟨⟩) reset ⟨more, -⟩
    · refine .perform (more set) ?_
      rintro _ later ⟨more', -⟩
      exact .throw (finished _ _ (more.trans more'))
    · exact ih (more set) (fun result later more' => finished result later (more.trans more')) _

theorem SemaphoreSet.create_keeps {numRecords : Nat}
    (keyed : .key (generateSemKey name) ∈ held)
    {post : Except InMemoryTableError SemaphoreSet → Set Capability → Prop}
    (ok : ∀ set later, held ⊆ later → .set set.semId ∈ later → post (.ok set) later)
    (error : ∀ e later, held ⊆ later → post (.error e) later) :
    (create platform name numRecords).program.Keeps holding held post := by
  refine .perform keyed ?_
  rintro (e | semId) created ⟨more, granted⟩
  · exact .throw (error _ _ more)
  · have set : .set semId ∈ created := granted rfl
    refine .seq (semReset_keeps set ?_ _ _)
    rintro (e | ⟨⟩) later more'
    · exact error _ _ (more.trans more')
    · exact .pure (ok _ _ (more.trans more') (more' set))

theorem SemaphoreSet.openExisting_keeps {numRecords : Nat}
    (keyed : .key (generateSemKey name) ∈ held)
    {post : Except InMemoryTableError SemaphoreSet → Set Capability → Prop}
    (ok : ∀ set later, held ⊆ later → .set set.semId ∈ later → post (.ok set) later)
    (error : ∀ e later, held ⊆ later → post (.error e) later) :
    (openExisting platform name numRecords).program.Keeps holding held post := by
  refine .perform keyed ?_
  rintro (e | semId) later ⟨more, granted⟩
  · exact .throw (error _ _ more)
  · exact .pure (ok _ _ more (granted rfl))

theorem SemaphoreSet.destroy_keeps {set : SemaphoreSet} (holds : .set set.semId ∈ held)
    {post : Except InMemoryTableError Unit → Set Capability → Prop}
    (finished : ∀ result later, held ⊆ later → post result later) :
    (set.destroy platform).program.Keeps holding held post := by
  refine .perform holds ?_
  rintro (e | ⟨⟩) later ⟨more, -⟩
  · exact .throw (finished _ _ more)
  · exact .pure (finished _ _ more)

/-! ### Tables -/

variable (layout : NodeLayout K B) (hasher : K → Nat)

theorem SharedTable.createWithSize_keeps (capacity recordSize : Nat)
    (own : Capability.own name ⊆ held) :
    (createWithSize platform layout hasher name capacity recordSize).program.Keeps holding held
      (fun outcome later => held ⊆ later ∧ ∀ table, outcome = .ok table → table.Held later) := by
  have failed : ∀ (e : InMemoryTableError) (later : Set Capability), held ⊆ later →
      held ⊆ later ∧ ∀ table : SharedTable K B, .error e = Except.ok table → table.Held later :=
    fun e later more => ⟨more, nofun⟩
  refine .seq (Block.new_keeps platform (own (Capability.own_name name)) ?_ failed)
  intro block first more blocked
  refine .ofExcept (fun _ _ => ?_) (fun e => failed e _ more)
  refine .perform blocked.object ?_
  rintro _ headed ⟨more', -⟩
  have now := more.trans more'
  refine .ofExcept (fun _ _ => ?_) (fun e => failed e _ now)
  refine .ofExcept (fun _ _ => ?_) (fun e => failed e _ now)
  refine .perform (more' blocked.object) ?_
  rintro _ filled ⟨more'', -⟩
  replace now := now.trans more''
  replace blocked := blocked.mono (more'.trans more'')
  refine .seq (SemaphoreSet.create_keeps platform (now (own (Capability.own_key name))) ?_
    (fun e later last => failed e later (now.trans last)))
  intro semaphores second grown set
  replace now := now.trans grown
  replace blocked := blocked.mono grown
  refine .seq (.seq (Block.new_keeps platform (now (own (Capability.own_indexName name))) ?_
    (fun e later last => failed e later (now.trans last))))
  intro indexBlock third more indexed
  replace now := now.trans more
  refine .ofExcept (fun _ _ => ?_) (fun e => failed e _ now)
  refine .ofExcept (fun _ _ => ?_) (fun e => failed e _ now)
  refine .perform indexed.object ?_
  rintro _ nodes ⟨more', -⟩
  replace now := now.trans more'
  refine .seq (SemaphoreSet.create_keeps platform (now (own (Capability.own_indexKey name))) ?_
    (fun e later last => failed e later (now.trans last)))
  intro indexSemaphores later last indexSet
  refine .pure (.pure ⟨now.trans last, fun table same => ?_⟩)
  cases same
  have all : second ⊆ later := more.trans (more'.trans last)
  exact ⟨blocked.mono all, all set, indexed.mono (more'.trans last), indexSet⟩

theorem SharedTable.openExisting_keeps (own : Capability.own name ⊆ held) :
    (openExisting platform layout hasher name).program.Keeps holding held
      (fun outcome later => held ⊆ later ∧ ∀ table, outcome = .ok table → table.Held later) := by
  have failed : ∀ (e : InMemoryTableError) (later : Set Capability), held ⊆ later →
      held ⊆ later ∧ ∀ table : SharedTable K B, .error e = Except.ok table → table.Held later :=
    fun e later more => ⟨more, nofun⟩
  refine .seq (Block.openExisting_keeps platform (own (Capability.own_name name)) ?_ failed)
  intro block first now blocked
  refine .ofExcept (fun _ _ => ?_) (fun e => failed e _ now)
  refine .ofExcept (fun _ _ => ?_) (fun e => failed e _ now)
  refine .perform blocked.object ?_
  rintro valid looked ⟨more, -⟩
  replace now := now.trans more
  cases valid with
  | false => exact .throw (failed _ _ now)
  | true =>
    refine .ofExcept (fun _ _ => ?_) (fun e => failed e _ now)
    refine .perform (more blocked.object) ?_
    rintro capacity counted ⟨more', -⟩
    replace now := now.trans more'
    replace blocked := blocked.mono (more.trans more')
    refine .seq (SemaphoreSet.openExisting_keeps platform (now (own (Capability.own_key name))) ?_
      (fun e later last => failed e later (now.trans last)))
    intro semaphores second grown set
    replace now := now.trans grown
    replace blocked := blocked.mono grown
    refine .perform blocked.object ?_
    rintro capacity again ⟨more'', -⟩
    replace now := now.trans more''
    refine .seq (.seq (Block.openExisting_keeps platform (now (own (Capability.own_indexName name)))
      ?_ (fun e later last => failed e later (now.trans last))))
    intro indexBlock third more indexed
    replace now := now.trans more
    refine .ofExcept (fun _ _ => ?_) (fun e => failed e _ now)
    refine .ofExcept (fun _ _ => ?_) (fun e => failed e _ now)
    refine .seq (SemaphoreSet.openExisting_keeps platform
      (now (own (Capability.own_indexKey name))) ?_
      (fun e later last => failed e later (now.trans last)))
    intro indexSemaphores later last indexSet
    refine .pure (.pure ⟨now.trans last, fun table same => ?_⟩)
    cases same
    have all : second ⊆ later := more''.trans (more.trans last)
    exact ⟨blocked.mono all, all set, indexed.mono last, indexSet⟩

theorem SharedTable.destroy_keeps {table : SharedTable K B} (holds : table.Held held) :
    (table.destroy platform).program.Keeps holding held (fun _ later => held ⊆ later) := by
  refine .seq (Block.destroy_keeps platform holds.block ?_)
  rintro (e | ⟨⟩) first now
  · exact now
  refine .seq (SemaphoreSet.destroy_keeps platform (now holds.semaphores) ?_)
  rintro (e | ⟨⟩) second more
  · exact now.trans more
  replace now := now.trans more
  refine .seq (Block.destroy_keeps platform (holds.indexBlock.mono now) ?_)
  rintro (e | ⟨⟩) third more
  · exact now.trans more
  replace now := now.trans more
  exact SemaphoreSet.destroy_keeps platform (now holds.indexSemaphores)
    (fun result later more => now.trans more)

end Programs
end InMemoryTable
