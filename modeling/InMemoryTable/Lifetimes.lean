import InMemoryTable.Resources

/-! Completed `create`, `open` and `destroy` calls on one name, by processes that
hold any number of handles. A handle outlives its table: `destroy` releases the
blocks by name and the semaphore sets by id. -/
namespace InMemoryTable

variable {K B : Type} {platform : Platform B} {layout : NodeLayout K B} {hasher : K → Nat}
  {kernel after : Kernel B} {name : String}

/-- The kernel and the handles that the processes hold. -/
structure System (K B : Type) where
  kernel : Kernel B
  handles : List (SharedTable K B)

/-- `destroy` consumes the handle at that place. -/
inductive LifecycleCall where
  | create (capacity recordSize : Nat)
  | openExisting
  | destroy (handle : Nat)

namespace System
variable (platform : Platform B) (layout : NodeLayout K B) (hasher : K → Nat) (name : String)

def start : System K B := { kernel := .empty platform, handles := [] }

/-- A call that returns a handle or an error. -/
def obtained (system : System K B) (outcome : Except InMemoryTableError (SharedTable K B) × Kernel B) :
    System K B :=
  match outcome with
  | (.ok table, kernel) => { kernel, handles := system.handles ++ [table] }
  | (.error _, kernel) => { system with kernel }

def step (system : System K B) : LifecycleCall → System K B
  | .create capacity recordSize =>
    system.obtained (system.kernel.runs platform
      (SharedTable.createWithSize platform layout hasher name capacity recordSize))
  | .openExisting =>
    system.obtained
      (system.kernel.runs platform (SharedTable.openExisting platform layout hasher name))
  | .destroy handle =>
    match system.handles[handle]? with
    | none => system
    | some table =>
      { kernel := (system.kernel.runs platform (table.destroy platform)).2
        handles := system.handles.eraseIdx handle }

/-- All four resources are there, or none. -/
def AllOrNone (system : System K B) : Prop :=
  (∀ r, system.kernel.resource name r ≠ none) ∨ ∀ r, system.kernel.resource name r = none

/-- The call does not destroy through a handle older than the table under the
name, or it leaves all resources of that table as they are. -/
def SparesNewer (system : System K B) : LifecycleCall → Prop
  | .destroy handle =>
    ∀ table, system.handles[handle]? = some table →
      ∀ object, system.kernel.names name = some object → table.block.fd < object →
        ∀ r, (step platform layout hasher name system (.destroy handle)).kernel.resource name r =
          system.kernel.resource name r
  | _ => True

/-- The handle destroyed is one of the table under the name, or there is none. -/
def NotStale (system : System K B) : LifecycleCall → Prop
  | .destroy handle =>
    ∀ table, system.handles[handle]? = some table →
      system.kernel.names name = none ∨ system.kernel.names name = some table.block.fd
  | _ => True

/-- After every call of a sequence, all or none, and no call takes from a newer table. -/
def Consistent (system : System K B) : List LifecycleCall → Prop
  | [] => system.AllOrNone name
  | request :: rest =>
    system.AllOrNone name ∧ system.SparesNewer platform layout hasher name request ∧
      Consistent (system.step platform layout hasher name request) rest

def NeverStale (system : System K B) : List LifecycleCall → Prop
  | [] => True
  | request :: rest =>
    system.NotStale name request ∧ NeverStale (system.step platform layout hasher name request) rest

end System

/-- No argument of the call makes the operating system refuse it. -/
def LifecycleCall.Fits (platform : Platform B) (layout : NodeLayout K B) (name : String) :
    LifecycleCall → Prop
  | .create capacity recordSize => SharedTable.Fits platform layout name capacity recordSize
  | _ => True

/-- What a handle remembers is what is there, unless its table is gone. -/
structure SharedTable.Remembers (table : SharedTable K B) (name : String) (kernel : Kernel B) :
    Prop where
  named : table.Named name
  known : table.block.fd < kernel.nextObject
  older : ∀ object, kernel.names name = some object → table.block.fd ≤ object
  current : kernel.names name = some table.block.fd → table.Current name kernel

structure System.Valid (name : String) (system : System K B) : Prop where
  allOrNone : system.AllOrNone name
  remembers : ∀ table ∈ system.handles, table.Remembers name system.kernel

namespace System.Valid
variable {system : System K B} {result : Except InMemoryTableError (SharedTable K B)}

theorem start (platform : Platform B) (name : String) :
    (System.start platform : System K B).Valid name where
  allOrNone := by
    refine .inr fun r => ?_
    cases r <;> rfl
  remembers table member := by simp [System.start] at member

theorem resource_of_existing (same : after.existing = kernel.existing) (r : Resource) :
    after.resource name r = kernel.resource name r := by
  have names := (Prod.mk.inj same).1
  have keys := (Prod.mk.inj (Prod.mk.inj same).2).1
  cases r <;> simp only [Kernel.resource, names, keys]

/-- A call that changes nothing that exists. -/
theorem unchanged (valid : system.Valid name) (same : after.existing = system.kernel.existing)
    (later : system.kernel.nextObject ≤ after.nextObject) {handles : List (SharedTable K B)}
    (kept : ∀ table ∈ handles, table ∈ system.handles) : System.Valid name ⟨after, handles⟩ where
  allOrNone := by
    simpa only [AllOrNone, resource_of_existing same] using valid.allOrNone
  remembers table member := by
    have before := valid.remembers table (kept table member)
    have names := (Prod.mk.inj same).1
    refine ⟨before.named, before.known.trans_le later, ?_, ?_⟩
    · intro object named
      exact before.older object (names ▸ named)
    · intro named r
      rw [resource_of_existing same]
      exact before.current (names ▸ named) r

/-- After a creation the name is taken by a block that no older handle knows. -/
theorem created (valid : system.Valid name) (block : after.names name = some system.kernel.nextObject)
    (later : system.kernel.nextObject ≤ after.nextObject) {table : SharedTable K B}
    (member : table ∈ system.handles) : table.Remembers name after := by
  have before := valid.remembers table member
  refine ⟨before.named, before.known.trans_le later, ?_, ?_⟩
  · intro object named
    obtain rfl := Option.some.inj (block.symm.trans named)
    exact before.known.le
  · intro named
    have same := Option.some.inj (block.symm.trans named)
    exact absurd same.symm before.known.ne

theorem create_valid (valid : system.Valid name) {capacity recordSize : Nat}
    (fits : SharedTable.Fits platform layout name capacity recordSize) :
    (system.step platform layout hasher name (.create capacity recordSize)).Valid name := by
  have later := system.kernel.runs_nextObject platform
    (SharedTable.createWithSize platform layout hasher name capacity recordSize)
  by_cases free : system.kernel.names name = none
  · have absent : ∀ r, system.kernel.resource name r = none :=
      valid.allOrNone.resolve_left (fun present => present .block free)
    by_cases same : SemaphoreSet.generateSemKey (indexName name) = SemaphoreSet.generateSemKey name
    · obtain ⟨e, after, ran, block, present⟩ :=
        SharedTable.create_collision hasher absent fits same
      rw [ran] at later
      simp only [step, ran, obtained]
      exact ⟨.inl present, fun table member => valid.created block later member⟩
    · obtain ⟨table, after, ran, named, fd, current⟩ :=
        SharedTable.create_distinct hasher absent fits same
      have block : after.names name = some system.kernel.nextObject := fd ▸ current .block
      have known : table.block.fd < after.nextObject := after.allocated (current .block)
      rw [ran] at later
      simp only [step, ran, obtained]
      refine ⟨.inl fun r => Option.ne_none_iff_exists'.mpr ⟨_, current r⟩, fun other member => ?_⟩
      rcases List.mem_append.mp member with old | new
      · exact valid.created block later old
      · obtain rfl := List.mem_singleton.mp new
        refine ⟨named, known, fun object named => ?_, fun _ => current⟩
        exact (Option.some.inj ((current .block).symm.trans named)).le
  · have refused : ∃ e after, system.kernel.runs platform
        (SharedTable.createWithSize platform layout hasher name capacity recordSize) =
          (.error e, after) ∧ after.existing = system.kernel.existing :=
      SharedTable.create_error_block platform layout hasher (fun granted => free granted.1)
    obtain ⟨e, after, ran, restored⟩ := refused
    rw [ran] at later
    simp only [step, ran, obtained]
    exact valid.unchanged restored later (fun _ member => member)

theorem open_valid (valid : system.Valid name) :
    (system.step platform layout hasher name .openExisting).Valid name := by
  obtain ⟨e, ran⟩ | ⟨table, ran, block, indexBlock, current⟩ :=
    SharedTable.openExisting_cases platform layout hasher system.kernel name
  · simp only [step, ran, obtained]
    exact valid
  · simp only [step, ran, obtained]
    refine ⟨valid.allOrNone, fun other member => ?_⟩
    rcases List.mem_append.mp member with old | new
    · exact valid.remembers other old
    · obtain rfl := List.mem_singleton.mp new
      refine ⟨⟨block, indexBlock⟩, system.kernel.allocated (current .block), fun object named => ?_,
        fun _ => current⟩
      exact (Option.some.inj ((current .block).symm.trans named)).le

theorem destroy_valid (valid : system.Valid name) {handle : Nat}
    (fresh : system.NotStale name (.destroy handle)) :
    (system.step platform layout hasher name (.destroy handle)).Valid name := by
  cases found : system.handles[handle]? with
  | none =>
    simp only [step, found]
    exact valid
  | some table =>
    simp only [step, found]
    have remembered := valid.remembers table (List.mem_of_getElem? found)
    have kept : ∀ other ∈ system.handles.eraseIdx handle, other ∈ system.handles :=
      fun other member => List.mem_of_mem_eraseIdx member
    have later := system.kernel.runs_nextObject platform (table.destroy platform)
    rcases fresh table found with absent | current
    · exact valid.unchanged (congrArg _ (SharedTable.destroy_absent remembered.named absent)) later
        kept
    · have gone := SharedTable.destroy_current platform remembered.named
        (remembered.current current)
      refine ⟨.inr gone, fun other member => ?_⟩
      have before := valid.remembers other (kept other member)
      refine ⟨before.named, before.known.trans_le later, fun object named => ?_, fun named => ?_⟩
      · exact absurd ((gone .block).symm.trans named) (by simp)
      · exact absurd ((gone .block).symm.trans named) (by simp)

theorem step_valid (hasher : K → Nat) (valid : system.Valid name) {request : LifecycleCall}
    (fits : request.Fits platform layout name) (fresh : system.NotStale name request) :
    (system.step platform layout hasher name request).Valid name := by
  cases request with
  | create capacity recordSize => exact valid.create_valid fits
  | openExisting => exact valid.open_valid
  | destroy handle => exact valid.destroy_valid fresh

/-- A stale handle takes the block of the newer table. -/
theorem spares_iff (valid : system.Valid name) (request : LifecycleCall) :
    system.SparesNewer platform layout hasher name request ↔ system.NotStale name request := by
  cases request with
  | create capacity recordSize => exact Iff.rfl
  | openExisting => exact Iff.rfl
  | destroy handle =>
    constructor
    · intro spares table found
      have remembered := valid.remembers table (List.mem_of_getElem? found)
      cases block : system.kernel.names name with
      | none => exact .inl rfl
      | some object =>
        refine .inr (congrArg some ?_)
        rcases (remembered.older object block).lt_or_eq with newer | same
        · have kept := spares table found object block newer .block
          have gone := SharedTable.destroy_names platform system.kernel remembered.named
          simp only [step, found] at kept
          exact absurd (kept.symm.trans gone) (by simp [Kernel.resource, block])
        · exact same.symm
    · intro fresh table found object block newer
      rcases fresh table found with absent | current
      · exact absurd (block.symm.trans absent) (by simp)
      · have same := Option.some.inj (block.symm.trans current)
        omega

theorem consistent_iff (valid : system.Valid name) {calls : List LifecycleCall}
    (fits : ∀ request ∈ calls, request.Fits platform layout name) :
    system.Consistent platform layout hasher name calls ↔
      system.NeverStale platform layout hasher name calls := by
  induction calls generalizing system with
  | nil => exact iff_of_true valid.allOrNone trivial
  | cons request rest ih =>
    have fits_rest : ∀ later ∈ rest, later.Fits platform layout name :=
      fun later member => fits later (List.mem_cons_of_mem request member)
    constructor
    · rintro ⟨-, spares, remaining⟩
      have fresh := (valid.spares_iff request).mp spares
      have next := valid.step_valid hasher (fits request List.mem_cons_self) fresh
      exact ⟨fresh, (ih next fits_rest).mp remaining⟩
    · rintro ⟨fresh, remaining⟩
      have next := valid.step_valid hasher (fits request List.mem_cons_self) fresh
      exact ⟨valid.allOrNone, (valid.spares_iff request).mpr fresh, (ih next fits_rest).mpr remaining⟩

end System.Valid

/-- Over any sequence of calls the four resources come and go together and newer
tables are left alone exactly if no handle is destroyed while the name belongs to
a newer table. -/
theorem lifetimes_consistent (platform : Platform B) (layout : NodeLayout K B) (hasher : K → Nat)
    (name : String) (calls : List LifecycleCall)
    (fits : ∀ request ∈ calls, request.Fits platform layout name) :
    (System.start platform).Consistent platform layout hasher name calls ↔
      (System.start platform).NeverStale platform layout hasher name calls :=
  (System.Valid.start platform name).consistent_iff fits

/-- A handle outlives its table, and a second table has the name. -/
def staleCalls : List LifecycleCall :=
  [.create 1 1, .openExisting, .destroy 0, .create 1 1, .destroy 0]

theorem staleCalls_fit :
    ∀ request ∈ staleCalls, request.Fits Platform.sample (.cell UInt8) "t" := by
  intro request member
  simp only [staleCalls, List.mem_cons, List.not_mem_nil, or_false] at member
  rcases member with rfl | rfl | rfl | rfl | rfl
  · exact SharedTable.sample_fits_one (by decide)
  · trivial
  · trivial
  · exact SharedTable.sample_fits_one (by decide)
  · trivial

theorem lifetimes_consistent_sample :
    (System.start Platform.sample).Consistent .sample (.cell UInt8) UInt8.toNat "t" staleCalls ↔
      (System.start Platform.sample).NeverStale .sample (.cell UInt8) UInt8.toNat "t" staleCalls :=
  lifetimes_consistent .sample (.cell UInt8) UInt8.toNat "t" staleCalls staleCalls_fit

/-- The processes before the last call: a handle of the first table is left. -/
def staleSystem : System UInt8 (Node UInt8) :=
  (staleCalls.take 4).foldl (System.step .sample (.cell UInt8) UInt8.toNat "t") (.start .sample)

/-- The opened handle unlinks the data block of the second table. -/
theorem stale_destroy_breaks :
    ¬ (System.start Platform.sample).Consistent .sample (.cell UInt8) UInt8.toNat "t" staleCalls := by
  intro consistent
  have fresh := ((System.Valid.start .sample "t").consistent_iff staleCalls_fit).mp consistent
  obtain ⟨-, -, -, -, fresh, -⟩ := fresh
  have named : staleSystem.kernel.names "t" = some 2 := by decide +kernel
  have handle : (staleSystem.handles[0]?).map (·.block.fd) = some 0 := by decide +kernel
  obtain ⟨table, found, fd⟩ := Option.map_eq_some_iff.mp handle
  rcases fresh table found with absent | current
  · exact absurd (named.symm.trans absent) (by simp)
  · rw [fd] at current
    exact absurd (named.symm.trans current) (by simp)

end InMemoryTable
