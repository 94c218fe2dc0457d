import InMemoryTable.Capabilities
import InMemoryTable.Lifetimes

/-! Processes that create, open, use and destroy tables of different names at the same
time, each call of the operating system a step of its own. A process reaches only
what its own names and keys lead to. -/
namespace InMemoryTable
open Program Interleaving Transition

variable {K B ι : Type} {platform : Platform B}

/-! ### What one step can do to the kernel -/

/-- The change of the kernel by a step that acts on a capability. -/
inductive Kernel.Change (platform : Platform B) (kernel : Kernel B) : Capability → Kernel B → Prop
  where
  | nothing {target : Capability} : Change platform kernel target kernel
  | createObject {name : ShmName} :
      Change platform kernel (.name name) (kernel.createObject platform name)
  | removeName {name : ShmName} : Change platform kernel (.name name) (kernel.removeName name)
  | setObject {fd : Nat} {object : ShmObject B} :
      Change platform kernel (.object fd) (kernel.setObject fd object)
  | createSet {key : Int32} {set : SemSet} :
      Change platform kernel (.key key) (kernel.createSet key set)
  | setValues {semId : Nat} {set : SemSet} (exists_set : kernel.sets semId = some set)
      {values : Semaphores} :
      Change platform kernel (.set semId) (kernel.setValues semId set exists_set values)
  | removeSet {semId : Nat} : Change platform kernel (.set semId) (kernel.removeSet semId)

theorem exec_change (platform : Platform B) (faults : Action → Option Errno) (kernel : Kernel B)
    (action : Action) :
    kernel.Change platform action.uses (platform.exec faults kernel action).2 := by
  have fault : ∀ {α : Type} {target : Capability} (errno : Option Errno)
      (done : Except Errno α × Kernel B), kernel.Change platform target done.2 →
      kernel.Change platform target (kernel.orFault errno done).2 := by
    intro α target errno done change
    cases errno with
    | none => exact change
    | some errno => exact .nothing
  cases action with
  | shmOpenNew name =>
    apply fault
    rw [Kernel.shmOpenNew]
    split
    · exact .nothing
    · exact .createObject
  | shmOpen name =>
    apply fault
    rw [Kernel.shmOpen]
    split <;> exact .nothing
  | ftruncate fd length =>
    apply fault
    rw [Kernel.ftruncate]
    split
    · exact .nothing
    · exact .setObject
  | fstat fd => exact fault _ _ .nothing
  | mmap fd length =>
    apply fault
    rw [Kernel.mmap]
    split <;> exact .nothing
  | shmUnlink name =>
    simp only [Platform.exec, Kernel.shmUnlink]
    split
    · exact .removeName
    · exact .nothing
  | semgetNew key nsems =>
    apply fault
    obtain ⟨errno, failed⟩ | ⟨size, -, -, -, -, created⟩ := kernel.semgetNew_cases platform key nsems
    · rw [failed]
      exact .nothing
    · rw [created]
      exact .createSet
  | semget key nsems =>
    apply fault
    obtain ⟨errno, failed⟩ | ⟨semId, -, found⟩ := kernel.semget_cases platform key nsems
    · rw [failed]
      exact .nothing
    · rw [found]
      exact .nothing
  | semop semId semNum =>
    apply fault
    unfold Kernel.semop
    split
    · exact .nothing
    · rename_i set exists_set
      split
      · exact .setValues exists_set
      · exact .nothing
  | semctlRmid semId =>
    simp only [Platform.exec, Kernel.semctlRmid]
    split
    · exact .nothing
    · exact .removeSet
  | writeBytes fd length => exact .setObject
  | writeHeader fd header => exact .setObject
  | slotsNew fd capacity dataSize => exact .setObject
  | indexSlotsNew fd capacity dataSize => exact .setObject
  | isValid fd => exact .nothing
  | readCapacity fd => exact .nothing

/-- Where the outcomes are all free a removal may change nothing and grant nothing. -/
theorem attempt_cases (platform : Platform B) (faults : Action → Option Errno) (kernel : Kernel B)
    (action : Action) :
    platform.attempt faults kernel action = platform.exec faults kernel action ∨
      (platform.attempt faults kernel action).2 = kernel ∧
        action.grants (platform.attempt faults kernel action).1 = ∅ := by
  cases action with
  | shmUnlink name =>
    simp only [Platform.attempt]
    cases faults (.shmUnlink name) with
    | none => exact .inl rfl
    | some errno => exact .inr ⟨rfl, rfl⟩
  | semctlRmid semId =>
    simp only [Platform.attempt]
    cases faults (.semctlRmid semId) with
    | none => exact .inl rfl
    | some errno => exact .inr ⟨rfl, rfl⟩
  | _ => exact .inl rfl

theorem attempt_change (platform : Platform B) (faults : Action → Option Errno) (kernel : Kernel B)
    (action : Action) :
    kernel.Change platform action.uses (platform.attempt faults kernel action).2 := by
  obtain same | ⟨unchanged, -⟩ := attempt_cases platform faults kernel action
  · rw [same]
    exact exec_change platform faults kernel action
  · rw [unchanged]
    exact .nothing

namespace Kernel

/-- Different names refer to different objects, and different keys to different sets. -/
structure Unambiguous (kernel : Kernel B) : Prop where
  names : ∀ {name other fd}, kernel.names name = some fd → kernel.names other = some fd →
    name = other
  keys : ∀ {key other semId}, kernel.keys key = some semId → kernel.keys other = some semId →
    key = other

theorem empty_unambiguous (platform : Platform B) : (empty platform).Unambiguous where
  names named := by simp [empty] at named
  keys keyed := by simp [empty] at keyed

/-- A name or a key that appears leads to something new. -/
structure Ages (s t : Kernel B) : Prop where
  nextObject : s.nextObject ≤ t.nextObject
  nextSet : s.nextSet ≤ t.nextSet
  names : ∀ {name fd}, t.names name = some fd → s.names name = some fd ∨
    (s.nextObject ≤ fd ∧ ∀ other, t.names other = some fd → other = name)
  keys : ∀ {key semId}, t.keys key = some semId → s.keys key = some semId ∨
    (s.nextSet ≤ semId ∧ ∀ other, t.keys other = some semId → other = key)

variable {kernel after : Kernel B} {target : Capability} {name : String}

theorem semId_lt {key : Int32} {semId : Nat} (keyed : kernel.keys key = some semId) :
    semId < kernel.nextSet := by
  by_contra later
  have live := kernel.live keyed
  rw [kernel.unused (Nat.not_lt.mp later)] at live
  cases live

theorem Change.ages (change : kernel.Change platform target after) : kernel.Ages after := by
  cases change with
  | nothing => exact ⟨Nat.le_refl _, Nat.le_refl _, .inl, .inl⟩
  | setObject => exact ⟨Nat.le_refl _, Nat.le_refl _, .inl, .inl⟩
  | setValues => exact ⟨Nat.le_refl _, Nat.le_refl _, .inl, .inl⟩
  | @createObject created =>
    refine ⟨Nat.le_succ _, Nat.le_refl _, fun {name fd} named => ?_, .inl⟩
    by_cases same : name = created
    · subst same
      simp only [createObject_names, Function.update_self, Option.some.injEq] at named
      subst named
      refine .inr ⟨Nat.le_refl _, fun other named => ?_⟩
      by_contra different
      simp only [createObject_names, Function.update_of_ne different] at named
      exact absurd (kernel.allocated named) (Nat.lt_irrefl _)
    · simp only [createObject_names, Function.update_of_ne same] at named
      exact .inl named
  | @removeName removed =>
    refine ⟨Nat.le_refl _, Nat.le_refl _, fun {name fd} named => .inl ?_, .inl⟩
    by_cases same : name = removed
    · subst same
      simp [Kernel.removeName] at named
    · exact (Function.update_of_ne same ..).symm.trans named
  | @createSet created set =>
    refine ⟨Nat.le_refl _, Nat.le_succ _, .inl, fun {key semId} keyed => ?_⟩
    by_cases same : key = created
    · subst same
      simp only [createSet_keys, Function.update_self, Option.some.injEq] at keyed
      subst keyed
      refine .inr ⟨Nat.le_refl _, fun other keyed => ?_⟩
      by_contra different
      simp only [createSet_keys, Function.update_of_ne different] at keyed
      exact absurd (semId_lt keyed) (Nat.lt_irrefl _)
    · simp only [createSet_keys, Function.update_of_ne same] at keyed
      exact .inl keyed
  | removeSet =>
    refine ⟨Nat.le_refl _, Nat.le_refl _, .inl, fun {key semId} keyed => .inl ?_⟩
    simp only [Kernel.removeSet] at keyed
    split at keyed
    · cases keyed
    · exact keyed

theorem Unambiguous.ages (unambiguous : kernel.Unambiguous) (ages : kernel.Ages after) :
    after.Unambiguous where
  names first second := by
    obtain old | ⟨_, only⟩ := ages.names first
    · obtain old' | ⟨_, only⟩ := ages.names second
      · exact unambiguous.names old old'
      · exact only _ first
    · exact (only _ second).symm
  keys first second := by
    obtain old | ⟨_, only⟩ := ages.keys first
    · obtain old' | ⟨_, only⟩ := ages.keys second
      · exact unambiguous.keys old old'
      · exact only _ first
    · exact (only _ second).symm

/-! ### What belongs to a table -/

/-- The capability leads to no part of the table of that name, now or later. -/
def Foreign (kernel : Kernel B) (name : String) : Capability → Prop
  | .object fd => fd < kernel.nextObject ∧
      ∀ own, .name own ∈ Capability.own name → kernel.names own ≠ some fd
  | .set semId => semId < kernel.nextSet ∧
      ∀ own, .key own ∈ Capability.own name → kernel.keys own ≠ some semId
  | target => target ∉ Capability.own name

theorem Foreign.ages (foreign : kernel.Foreign name target) (ages : kernel.Ages after) :
    after.Foreign name target := by
  cases target with
  | name other => exact foreign
  | key other => exact foreign
  | object fd =>
    refine ⟨foreign.1.trans_le ages.nextObject, fun own mine named => ?_⟩
    obtain old | ⟨late, _⟩ := ages.names named
    · exact foreign.2 own mine old
    · exact absurd foreign.1 (Nat.not_lt.mpr late)
  | set semId =>
    refine ⟨foreign.1.trans_le ages.nextSet, fun own mine keyed => ?_⟩
    obtain old | ⟨late, _⟩ := ages.keys keyed
    · exact foreign.2 own mine old
    · exact absurd foreign.1 (Nat.not_lt.mpr late)

/-- The table of that name, its four resources and what they contain, is as it was. -/
structure Spares (name : String) (s t : Kernel B) : Prop where
  names : ∀ own, .name own ∈ Capability.own name → t.names own = s.names own
  keys : ∀ own, .key own ∈ Capability.own name → t.keys own = s.keys own
  objects : ∀ own fd, .name own ∈ Capability.own name → s.names own = some fd →
    t.objects fd = s.objects fd
  sets : ∀ own semId, .key own ∈ Capability.own name → s.keys own = some semId →
    t.sets semId = s.sets semId

theorem Spares.refl (name : String) (s : Kernel B) : Spares name s s :=
  ⟨fun _ _ => rfl, fun _ _ => rfl, fun _ _ _ _ => rfl, fun _ _ _ _ => rfl⟩

theorem Spares.trans {s t u : Kernel B} (first : Spares name s t) (second : Spares name t u) :
    Spares name s u where
  names own mine := (second.names own mine).trans (first.names own mine)
  keys own mine := (second.keys own mine).trans (first.keys own mine)
  objects own fd mine named := (second.objects own fd mine
    ((first.names own mine).trans named)).trans (first.objects own fd mine named)
  sets own semId mine keyed := (second.sets own semId mine
    ((first.keys own mine).trans keyed)).trans (first.sets own semId mine keyed)

theorem Spares.resource {s t : Kernel B} (spares : Spares name s t) (r : Resource) :
    t.resource name r = s.resource name r := by
  cases r with
  | block => exact spares.names name (Capability.own_name name)
  | semaphores => exact spares.keys _ (Capability.own_key name)
  | indexBlock => exact spares.names _ (Capability.own_indexName name)
  | indexSemaphores => exact spares.keys _ (Capability.own_indexKey name)

/-- A step that acts on something foreign. -/
theorem Change.spares (change : kernel.Change platform target after)
    (foreign : kernel.Foreign name target) : Spares name kernel after := by
  cases change with
  | nothing => exact .refl name kernel
  | @createObject created =>
    refine ⟨fun own mine => ?_, fun _ _ => rfl, fun own fd mine named => ?_, fun _ _ _ _ => rfl⟩
    · refine Function.update_of_ne ?_ ..
      rintro rfl
      exact foreign mine
    · exact Function.update_of_ne (Nat.ne_of_lt (kernel.allocated named)) ..
  | @removeName removed =>
    refine ⟨fun own mine => ?_, fun _ _ => rfl, fun _ _ _ _ => rfl, fun _ _ _ _ => rfl⟩
    refine Function.update_of_ne ?_ ..
    rintro rfl
    exact foreign mine
  | @setObject fd object =>
    refine ⟨fun _ _ => rfl, fun _ _ => rfl, fun own other mine named => ?_, fun _ _ _ _ => rfl⟩
    refine Function.update_of_ne ?_ ..
    rintro rfl
    exact foreign.2 own mine named
  | @createSet created set =>
    refine ⟨fun _ _ => rfl, fun own mine => ?_, fun _ _ _ _ => rfl, fun own semId mine keyed => ?_⟩
    · refine Function.update_of_ne ?_ ..
      rintro rfl
      exact foreign mine
    · exact Function.update_of_ne (Nat.ne_of_lt (semId_lt keyed)) ..
  | @setValues semId set values exists_set =>
    refine ⟨fun _ _ => rfl, fun _ _ => rfl, fun _ _ _ _ => rfl, fun own other mine keyed => ?_⟩
    refine Function.update_of_ne ?_ ..
    rintro rfl
    exact foreign.2 own mine keyed
  | @removeSet semId =>
    refine ⟨fun _ _ => rfl, fun own mine => ?_, fun _ _ _ _ => rfl, fun own other mine keyed => ?_⟩
    · exact if_neg (foreign.2 own mine)
    · refine Function.update_of_ne ?_ ..
      rintro rfl
      exact foreign.2 own mine keyed

/-- What is granted on something foreign is foreign. -/
theorem exec_grants (platform : Platform B) (faults : Action → Option Errno)
    (unambiguous : kernel.Unambiguous) {action : Action}
    (foreign : kernel.Foreign name action.uses) :
    ∀ granted ∈ action.grants (platform.exec faults kernel action).1,
      (platform.exec faults kernel action).2.Foreign name granted := by
  have ages := (exec_change platform faults kernel action).ages
  have spares := (exec_change platform faults kernel action).spares foreign
  generalize executed : platform.exec faults kernel action = outcome at ages spares
  cases action with
  | shmOpenNew other =>
    simp only [Platform.exec, orFault, shmOpenNew] at executed
    split at executed
    · subst executed
      simp [Action.grants]
    · split at executed
      · subst executed
        simp [Action.grants]
      · subst executed
        rintro _ rfl
        refine ⟨Nat.lt_succ_self _, fun own mine named => ?_⟩
        rw [spares.names own mine] at named
        exact absurd (kernel.allocated named) (Nat.lt_irrefl _)
  | shmOpen other =>
    simp only [Platform.exec, orFault, shmOpen] at executed
    split at executed
    · subst executed
      simp [Action.grants]
    · split at executed
      · rename_i fd named
        subst executed
        rintro _ rfl
        refine ⟨kernel.allocated named, fun own mine named' => ?_⟩
        rw [unambiguous.names named' named] at mine
        exact foreign mine
      · subst executed
        simp [Action.grants]
  | semgetNew key nsems =>
    simp only [Platform.exec, orFault] at executed
    split at executed
    · subst executed
      simp [Action.grants]
    · obtain ⟨errno, failed⟩ | ⟨size, -, -, -, -, created⟩ :=
        kernel.semgetNew_cases platform key nsems
      · rw [failed] at executed
        subst executed
        simp [Action.grants]
      · rw [created] at executed
        subst executed
        rintro _ rfl
        refine ⟨Nat.lt_succ_self _, fun own mine keyed => ?_⟩
        rw [spares.keys own mine] at keyed
        exact kernel.keys_ne_nextSet own keyed
  | semget key nsems =>
    simp only [Platform.exec, orFault] at executed
    split at executed
    · subst executed
      simp [Action.grants]
    · obtain ⟨errno, failed⟩ | ⟨semId, keyed, found⟩ := kernel.semget_cases platform key nsems
      · rw [failed] at executed
        subst executed
        simp [Action.grants]
      · rw [found] at executed
        subst executed
        rintro _ rfl
        refine ⟨semId_lt keyed, fun own mine keyed' => ?_⟩
        rw [unambiguous.keys keyed' keyed] at mine
        exact foreign mine
  | _ => simp [Action.grants]

theorem attempt_grants (platform : Platform B) (faults : Action → Option Errno)
    (unambiguous : kernel.Unambiguous) {action : Action}
    (foreign : kernel.Foreign name action.uses) :
    ∀ granted ∈ action.grants (platform.attempt faults kernel action).1,
      (platform.attempt faults kernel action).2.Foreign name granted := by
  obtain same | ⟨-, nothing⟩ := attempt_cases platform faults kernel action
  · rw [same]
    exact exec_grants platform faults unambiguous foreign
  · rw [nothing]
    exact fun granted member => member.elim

end Kernel

/-! ### Processes -/

/-- What a process is doing. -/
inductive TenantStage (K B : Type) where
  | idle
  | obtaining (program : Program Action Action.Reply (Except InMemoryTableError (SharedTable K B)))
  | destroying (program : Program Action Action.Reply (Except InMemoryTableError Unit))

/-- A process with the handles that it holds on tables of one name. -/
structure Tenant (K B : Type) where
  name : String
  layout : NodeLayout K B
  hasher : K → Nat
  handles : List (SharedTable K B)
  stage : TenantStage K B

inductive TenantEvent where
  | began (call : LifecycleCall)
  | called (action : Action)
  | returned
  | stored (fd : Nat)
  | locked (semId : Nat)

namespace Tenant

def start (name : String) (layout : NodeLayout K B) (hasher : K → Nat) : Tenant K B :=
  { name, layout, hasher, handles := [], stage := .idle }

/-- The program of a call; `destroy` consumes the handle at that place. -/
inductive Begins (platform : Platform B) (tenant : Tenant K B) :
    LifecycleCall → Tenant K B → Prop where
  | create (capacity recordSize : Nat) : Begins platform tenant (.create capacity recordSize)
      { tenant with stage := .obtaining (SharedTable.createWithSize platform tenant.layout
          tenant.hasher tenant.name capacity recordSize).program }
  | openExisting : Begins platform tenant .openExisting
      { tenant with stage := .obtaining (SharedTable.openExisting platform tenant.layout
          tenant.hasher tenant.name).program }
  | destroy {handle : Nat} {table : SharedTable K B} : tenant.handles[handle]? = some table →
      Begins platform tenant (.destroy handle)
        { tenant with
          handles := tenant.handles.eraseIdx handle
          stage := .destroying (table.destroy platform).program }

/-- One step of a process: a call begins, makes one call to the operating system, which
may fail, or returns. In between a process stores to the blocks of its handles and
takes and gives back their semaphores as its calls on the tables do. -/
inductive Moves (platform : Platform B) (kernel : Kernel B) :
    Tenant K B → TenantEvent → Kernel B → Tenant K B → Prop where
  | begins {tenant next : Tenant K B} {call : LifecycleCall} : tenant.stage = .idle →
      Begins platform tenant call next → Moves platform kernel tenant (.began call) kernel next
  | obtaining {tenant : Tenant K B} {action : Action}
      {next : action.Reply → Program Action Action.Reply
        (Except InMemoryTableError (SharedTable K B))} (faults : Action → Option Errno) :
      tenant.stage = .obtaining (.call action next) →
      Moves platform kernel tenant (.called action) (platform.attempt faults kernel action).2
        { tenant with stage := .obtaining (next (platform.attempt faults kernel action).1) }
  | destroying {tenant : Tenant K B} {action : Action}
      {next : action.Reply → Program Action Action.Reply (Except InMemoryTableError Unit)}
      (faults : Action → Option Errno) : tenant.stage = .destroying (.call action next) →
      Moves platform kernel tenant (.called action) (platform.attempt faults kernel action).2
        { tenant with stage := .destroying (next (platform.attempt faults kernel action).1) }
  | obtained {tenant : Tenant K B} {table : SharedTable K B} :
      tenant.stage = .obtaining (.ret (.ok table)) →
      Moves platform kernel tenant .returned kernel
        { tenant with handles := tenant.handles ++ [table], stage := .idle }
  | refused {tenant : Tenant K B} {e : InMemoryTableError} :
      tenant.stage = .obtaining (.ret (.error e)) →
      Moves platform kernel tenant .returned kernel { tenant with stage := .idle }
  | destroyed {tenant : Tenant K B} {result : Except InMemoryTableError Unit} :
      tenant.stage = .destroying (.ret result) →
      Moves platform kernel tenant .returned kernel { tenant with stage := .idle }
  | stores {tenant : Tenant K B} {table : SharedTable K B} {fd : Nat} (memory : TableMemory B) :
      table ∈ tenant.handles → fd = table.block.fd ∨ fd = table.primaryKeys.block.fd →
      Moves platform kernel tenant (.stored fd) (kernel.setMemory fd memory) tenant
  | locks {tenant : Tenant K B} {table : SharedTable K B} {semId : Nat} {set : SemSet}
      (exists_set : kernel.sets semId = some set) (values : Semaphores) :
      table ∈ tenant.handles →
      semId = table.semaphores.semId ∨ semId = table.primaryKeys.semaphores.semId →
      Moves platform kernel tenant (.locked semId) (kernel.setValues semId set exists_set values)
        tenant

/-- No name or key of one table is one of the other. -/
def Apart (name other : String) : Prop :=
  ∀ target ∈ Capability.own name, target ∉ Capability.own other

variable {kernel after : Kernel B} {tenant next : Tenant K B} {event : TenantEvent} {name : String}

/-- What the process holds, and what its call will have got hold of, is foreign to the table
of that name. -/
def Confined (name : String) (kernel : Kernel B) (tenant : Tenant K B) : Prop :=
  ∃ held : Set Capability, (∀ target ∈ held, kernel.Foreign name target) ∧
    Capability.own tenant.name ⊆ held ∧ (∀ table ∈ tenant.handles, table.Held held) ∧
    match tenant.stage with
    | .idle => True
    | .obtaining program => program.Keeps holding held
        (fun outcome later => ∀ table, outcome = .ok table → table.Held later)
    | .destroying program => program.Keeps holding held (fun _ _ => True)

theorem Confined.ages (confined : tenant.Confined name kernel) (ages : kernel.Ages after) :
    tenant.Confined name after := by
  obtain ⟨held, foreign, rest⟩ := confined
  exact ⟨held, fun target member => (foreign target member).ages ages, rest⟩

theorem start_confined (apart : Apart name tenant.name) (nothing : tenant.handles = [])
    (idle : tenant.stage = .idle) : tenant.Confined name kernel := by
  refine ⟨Capability.own tenant.name, fun target member => ?_, Set.Subset.rfl, ?_, ?_⟩
  · have outside : target ∉ Capability.own name := fun mine => apart target mine member
    obtain rfl | rfl | rfl | rfl := member <;> exact outside
  · simp [nothing]
  · rw [idle]
    trivial

/-- A call of the operating system on what is held. -/
theorem call_confined {α : Type} {held : Set Capability} {action : Action}
    {program : action.Reply → Program Action Action.Reply α} {post : α → Set Capability → Prop}
    (faults : Action → Option Errno) (unambiguous : kernel.Unambiguous)
    (foreign : ∀ target ∈ held, kernel.Foreign name target)
    (keeps : (Program.call action program).Keeps holding held post) :
    ∃ later, held ⊆ later ∧
      (∀ target ∈ later, (platform.attempt faults kernel action).2.Foreign name target) ∧
      (program (platform.attempt faults kernel action).1).Keeps holding later post := by
  obtain ⟨allowed, keeps⟩ := keeps
  have change := attempt_change platform faults kernel action
  have granted := Kernel.attempt_grants platform faults unambiguous (foreign _ allowed)
  refine ⟨held ∪ action.grants (platform.attempt faults kernel action).1, Set.subset_union_left, ?_,
    keeps _ _ ⟨Set.subset_union_left, Set.subset_union_right⟩⟩
  rintro target (before | new)
  · exact (foreign target before).ages change.ages
  · exact granted target new

/-- Every step acts on something, which is foreign if the process is confined. -/
theorem Moves.change (name : String) (moves : Moves platform kernel tenant event after next) :
    next.name = tenant.name ∧ ∃ target, kernel.Change platform target after ∧
      (tenant.Confined name kernel → after = kernel ∨ kernel.Foreign name target) := by
  have still : kernel.Change platform (.object 0) kernel := .nothing
  cases moves with
  | begins idle begins => cases begins <;> exact ⟨rfl, _, still, fun _ => .inl rfl⟩
  | @obtaining action program faults stage =>
    refine ⟨rfl, _, attempt_change platform faults kernel action, ?_⟩
    rintro ⟨held, foreign, _, _, keeps⟩
    rw [stage] at keeps
    exact .inr (foreign _ keeps.1)
  | @destroying action program faults stage =>
    refine ⟨rfl, _, attempt_change platform faults kernel action, ?_⟩
    rintro ⟨held, foreign, _, _, keeps⟩
    rw [stage] at keeps
    exact .inr (foreign _ keeps.1)
  | obtained stage => exact ⟨rfl, _, still, fun _ => .inl rfl⟩
  | refused stage => exact ⟨rfl, _, still, fun _ => .inl rfl⟩
  | destroyed stage => exact ⟨rfl, _, still, fun _ => .inl rfl⟩
  | @stores table fd memory member which =>
    refine ⟨rfl, .object fd, .setObject, ?_⟩
    rintro ⟨held, foreign, _, handles, _⟩
    refine .inr (foreign _ ?_)
    obtain rfl | rfl := which
    · exact (handles table member).block.object
    · exact (handles table member).indexBlock.object
  | @locks table semId set exists_set values member which =>
    refine ⟨rfl, .set semId, .setValues exists_set, ?_⟩
    rintro ⟨held, foreign, _, handles, _⟩
    refine .inr (foreign _ ?_)
    obtain rfl | rfl := which
    · exact (handles table member).semaphores
    · exact (handles table member).indexSemaphores

theorem Moves.confined (moves : Moves platform kernel tenant event after next)
    (unambiguous : kernel.Unambiguous) (confined : tenant.Confined name kernel) :
    next.Confined name after := by
  obtain ⟨_, target, change, _⟩ := moves.change name
  have aged := confined.ages change.ages
  obtain ⟨held, foreign, own, handles, stage⟩ := confined
  cases moves with
  | begins idle begins =>
    cases begins with
    | create capacity recordSize =>
      refine ⟨held, foreign, own, handles, ?_⟩
      exact (SharedTable.createWithSize_keeps platform _ _ capacity recordSize own).mono
        (fun _ _ ended => ended.2)
    | openExisting =>
      refine ⟨held, foreign, own, handles, ?_⟩
      exact (SharedTable.openExisting_keeps platform _ _ own).mono (fun _ _ ended => ended.2)
    | destroy found =>
      refine ⟨held, foreign, own,
        fun table member => handles table (List.mem_of_mem_eraseIdx member), ?_⟩
      exact (SharedTable.destroy_keeps platform (handles _ (List.mem_of_getElem? found))).mono
        (fun _ _ _ => trivial)
  | obtaining faults running =>
    rw [running] at stage
    obtain ⟨later, more, foreign', keeps⟩ := call_confined faults unambiguous foreign stage
    exact ⟨later, foreign', own.trans more, fun table member => (handles table member).mono more,
      keeps⟩
  | destroying faults running =>
    rw [running] at stage
    obtain ⟨later, more, foreign', keeps⟩ := call_confined faults unambiguous foreign stage
    exact ⟨later, foreign', own.trans more, fun table member => (handles table member).mono more,
      keeps⟩
  | @obtained table ended =>
    rw [ended] at stage
    refine ⟨held, foreign, own, fun other member => ?_, trivial⟩
    rcases List.mem_append.mp member with old | new
    · exact handles other old
    · rw [List.mem_singleton.mp new]
      exact stage table rfl
  | refused ended => exact ⟨held, foreign, own, handles, trivial⟩
  | destroyed ended => exact ⟨held, foreign, own, handles, trivial⟩
  | stores memory member which => exact aged
  | locks exists_set values member which => exact aged

end Tenant

/-! ### Any number of processes -/

open Tenant

/-- The processes of the other tables are confined. -/
structure Separated (name : String) (config : Config ι (Kernel B) (Tenant K B)) : Prop where
  unambiguous : config.shared.Unambiguous
  confined : ∀ c, Apart name (config.client c).name →
    (config.client c).Confined name config.shared

theorem Separated.step [DecidableEq ι] {name : String} {config last : Config ι (Kernel B) (Tenant K B)}
    {label : ι × TenantEvent} (separated : Separated name config)
    (stepped : Step (Moves platform) config label last) : Separated name last := by
  obtain ⟨moves⟩ := stepped
  obtain ⟨same, target, change, _⟩ := moves.change name
  have ages := change.ages
  refine ⟨separated.unambiguous.ages ages, ?_⟩
  refine Config.moved_forall (P := fun _ (tenant : Tenant K B) =>
    Apart name tenant.name → tenant.Confined name _) _ _ _ _ ?_ ?_
  · intro apart
    rw [same] at apart
    exact moves.confined separated.unambiguous (separated.confined _ apart)
  · exact fun d _ apart => (separated.confined d apart).ages ages

section Runs
variable [DecidableEq ι] {name : String} {config last next : Config ι (Kernel B) (Tenant K B)}
  {trace : List (ι × TenantEvent)} {c : ι} {event : TenantEvent}

/-- No step of a process on a table apart from `name` changes the names and keys of the
table `name`, the contents of its blocks or the values of its semaphores, whatever all
processes have done before. -/
theorem tables_isolated (name : String) (unambiguous : config.shared.Unambiguous)
    (fresh : ∀ c, (config.client c).handles = [] ∧ (config.client c).stage = .idle)
    (run : Run (Step (Moves platform)) config trace last)
    (stepped : Step (Moves platform) last (c, event) next)
    (apart : Apart name (last.client c).name) : Kernel.Spares name last.shared next.shared := by
  have separated : Separated name last := run.invariant Separated.step
    ⟨unambiguous, fun c apart => start_confined apart (fresh c).1 (fresh c).2⟩
  obtain ⟨moves⟩ := stepped
  obtain ⟨_, target, change, acts⟩ := moves.change name
  obtain same | foreign := acts (separated.confined c apart)
  · subst same
    exact .refl name last.shared
  · exact change.spares foreign

end Runs

/-! ### Two tables -/

/-- Process `false` is about to work with the table `a`, process `true` with the table `b`. -/
def twoTenants : Config Bool (Kernel (Node UInt8)) (Tenant UInt8 (Node UInt8)) where
  shared := .empty .sample
  client c := .start (if c then "b" else "a") (.cell UInt8) UInt8.toNat

theorem apart_sample : Apart "a" "b" := by
  rintro target (rfl | rfl | rfl | rfl) (same | same | same | same)
  all_goals exact absurd (show _ = _ from same) (by decide +kernel)

/-- The block of `b` appears. -/
theorem tables_isolated_sample :
    ∃ last next : Config Bool (Kernel (Node UInt8)) (Tenant UInt8 (Node UInt8)),
      Run (Step (Moves .sample)) twoTenants [(true, .began (.create 1 1))] last ∧
      Step (Moves .sample) last (true, .called (.shmOpenNew "b")) next ∧
      next.shared.names "b" = some 0 ∧ Kernel.Spares "a" last.shared next.shared := by
  let program := (SharedTable.createWithSize .sample (.cell UInt8) UInt8.toNat "b" 1 1).program
  obtain ⟨rest, first⟩ : ∃ rest, program = .call (.shmOpenNew "b") rest := by
    have valid : cString "b" = .ok "b" := if_neg (by decide +kernel)
    simp only [program, SharedTable.createWithSize, Block.new, valid]
    exact ⟨_, rfl⟩
  let creating := { twoTenants.client true with stage := .obtaining program }
  have begins : Step (Moves .sample) twoTenants (true, .began (.create 1 1))
      (twoTenants.moved true (.empty .sample) creating) := .move (.begins rfl (.create 1 1))
  have calls : Step (Moves .sample) (twoTenants.moved true (.empty .sample) creating)
      (true, .called (.shmOpenNew "b")) _ := .again (.obtaining noFault (congrArg _ first))
  exact ⟨_, _, .next begins (.refl _), calls, rfl,
    tables_isolated "a" (Kernel.empty_unambiguous _) (fun _ => ⟨rfl, rfl⟩)
      (.next begins (.refl _)) calls apart_sample⟩

end InMemoryTable
