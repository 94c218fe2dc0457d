import InMemoryTable.ConstructorSteps
import InMemoryTable.CreateFailure
import InMemoryTable.Isolation

/-! A name whose data block exists while another part of the table is missing, as a
failed creation leaves it. Nobody can create the table, because the block is there,
and nobody can open it. -/
namespace InMemoryTable
open Program Interleaving Transition Tenant

variable {K B ι : Type} {platform : Platform B} {name : String} {missing : Resource}

/-- What a resource is found by. -/
def Resource.capability (name : String) : Resource → Capability
  | .block => .name name
  | .semaphores => .key (SemaphoreSet.generateSemKey name)
  | .indexBlock => .name (indexName name)
  | .indexSemaphores => .key (SemaphoreSet.generateSemKey (indexName name))

/-- Calls that look, or try to create the block that is there; what is missing is not found. -/
def stuck (name : String) (missing : Resource) : Contract Action Action.Reply Unit where
  allows _ action := action.Reads ∨ action = .shmOpenNew name
  learns _ action reply _ :=
    match action, reply with
    | .shmOpenNew _, .ok _ => False
    | .shmOpen other, .ok _ => missing.capability name ≠ .name other
    | .semget key _, .ok _ => missing.capability name ≠ .key key
    | _, _ => True

structure Kernel.Stuck (kernel : Kernel B) (name : String) (missing : Resource) : Prop where
  present : kernel.names name ≠ none
  absent : kernel.resource name missing = none

theorem Kernel.Stuck.spared {kernel after : Kernel B} (holds : kernel.Stuck name missing)
    (spares : Spares name kernel after) : after.Stuck name missing where
  present := by
    rw [spares.names name (Capability.own_name name)]
    exact holds.present
  absent := (spares.resource missing).trans holds.absent

/-- Such a call changes nothing, and its reply is as the contract says. -/
theorem Kernel.Stuck.attempt {kernel : Kernel B} (holds : kernel.Stuck name missing)
    (platform : Platform B) (faults : Action → Option Errno) {action : Action}
    (allowed : (stuck name missing).allows () action) :
    (platform.attempt faults kernel action).2 = kernel ∧
      (stuck name missing).learns () action (platform.attempt faults kernel action).1 () := by
  obtain reads | rfl := allowed
  · cases action <;> first | exact reads.elim | skip
    case shmOpen other =>
      simp only [Platform.attempt, Platform.exec, orFault, shmOpen]
      cases faults (.shmOpen other) with
      | some errno => exact ⟨rfl, trivial⟩
      | none =>
        cases named : kernel.names other with
        | none => exact ⟨rfl, trivial⟩
        | some fd =>
          refine ⟨rfl, fun same => ?_⟩
          have absent := holds.absent
          cases missing <;>
            simp only [Resource.capability, Capability.name.injEq, reduceCtorEq] at same <;>
            simp [resource, same, named] at absent
    case semget key nsems =>
      simp only [Platform.attempt, Platform.exec, orFault]
      cases faults (.semget key nsems) with
      | some errno => exact ⟨rfl, trivial⟩
      | none =>
        obtain ⟨errno, failed⟩ | ⟨semId, keyed, found⟩ := kernel.semget_cases platform key nsems
        · simp only [failed]
          exact ⟨trivial, trivial⟩
        · simp only [found]
          refine ⟨trivial, fun same => ?_⟩
          have absent := holds.absent
          cases missing <;> cases same <;> simp [resource, keyed] at absent
    case fstat fd =>
      simp only [Platform.attempt, Platform.exec, orFault]
      cases faults (.fstat fd) <;> exact ⟨rfl, trivial⟩
    case mmap fd length =>
      simp only [Platform.attempt, Platform.exec, orFault, mmap]
      by_cases zero : length = 0
      all_goals
        simp only [zero, if_true, if_false]
        cases faults (.mmap fd _) <;> exact ⟨rfl, trivial⟩
    case isValid fd => exact ⟨rfl, trivial⟩
    case readCapacity fd => exact ⟨rfl, trivial⟩
  · obtain ⟨fd, named⟩ := Option.ne_none_iff_exists'.mp holds.present
    simp only [Platform.attempt, Platform.exec, orFault, shmOpenNew, named]
    cases faults (.shmOpenNew name) <;> exact ⟨rfl, trivial⟩

/-! ### The programs -/

section Programs
variable (platform) (layout : NodeLayout K B) (hasher : K → Nat)

/-- The contract of a program that ends with an error. -/
abbrev Refused {α : Type} (name : String) (missing : Resource)
    (program : Program Action Action.Reply (Except InMemoryTableError α)) : Prop :=
  program.Keeps (stuck name missing) () (fun outcome _ => ∃ e, outcome = .error e)

theorem SharedTable.createWithSize_refused (capacity recordSize : Nat) :
    Refused name missing
      (createWithSize platform layout hasher name capacity recordSize).program := by
  refine .seq (.ofExcept ?_ (fun e => ⟨e, rfl⟩))
  intro shmName valid
  cases cString_eq valid
  refine .perform (.inr rfl) ?_
  rintro (e | fd) _ possible
  · exact .throw ⟨_, rfl⟩
  · exact possible.elim

theorem Block.openExisting_stuck {other : String}
    {post : Except InMemoryTableError Block → Unit → Prop}
    (ok : missing.capability name ≠ .name other → ∀ block, post (.ok block) ())
    (error : ∀ e, post (.error e) ()) :
    (Block.openExisting platform other).program.Keeps (stuck name missing) () post := by
  refine .ofExcept ?_ error
  intro shmName valid
  cases cString_eq valid
  refine .perform (.inl trivial) ?_
  rintro (e | fd) _ found
  · exact .throw (error _)
  · refine .perform (.inl trivial) ?_
    rintro (e | size) _ -
    · exact .throw (error _)
    · simp only [mmapOpen, fallible_assoc]
      refine .perform (.inl trivial) ?_
      rintro (e | ptr) _ -
      · exact .throw (error _)
      · exact .pure (ok found _)

theorem SemaphoreSet.openExisting_stuck {other : String} {numRecords : Nat}
    {post : Except InMemoryTableError SemaphoreSet → Unit → Prop}
    (ok : missing.capability name ≠ .key (generateSemKey other) → ∀ set, post (.ok set) ())
    (error : ∀ e, post (.error e) ()) :
    (openExisting platform other numRecords).program.Keeps (stuck name missing) () post := by
  refine .perform (.inl trivial) ?_
  rintro (e | semId) _ found
  · exact .throw (error _)
  · exact .pure (ok found _)

/-- One of the four lookups of `open` is in vain. -/
theorem SharedTable.openExisting_refused :
    Refused name missing (openExisting platform layout hasher name).program := by
  refine .seq (Block.openExisting_stuck platform ?_ (fun e => ⟨e, rfl⟩))
  intro block fd
  refine .ofExcept (fun _ _ => ?_) (fun e => ⟨e, rfl⟩)
  refine .ofExcept (fun _ _ => ?_) (fun e => ⟨e, rfl⟩)
  refine .perform (.inl trivial) ?_
  rintro (_ | _) _ -
  · exact .throw ⟨_, rfl⟩
  refine .ofExcept (fun _ _ => ?_) (fun e => ⟨e, rfl⟩)
  refine .perform (.inl trivial) ?_
  rintro capacity _ -
  refine .seq (SemaphoreSet.openExisting_stuck platform ?_ (fun e => ⟨e, rfl⟩))
  intro semaphores set
  refine .perform (.inl trivial) ?_
  rintro capacity _ -
  refine .seq (.seq (Block.openExisting_stuck platform ?_ (fun e => ⟨e, rfl⟩)))
  intro indexBlock fd
  refine .ofExcept (fun _ _ => ?_) (fun e => ⟨e, rfl⟩)
  refine .ofExcept (fun _ _ => ?_) (fun e => ⟨e, rfl⟩)
  refine .seq (SemaphoreSet.openExisting_stuck platform ?_ (fun e => ⟨e, rfl⟩))
  intro indexSemaphores
  cases missing with
  | block => exact absurd rfl block
  | semaphores => exact absurd rfl semaphores
  | indexBlock => exact absurd rfl indexBlock
  | indexSemaphores => exact absurd rfl indexSemaphores

end Programs

/-! ### The processes -/

/-- The process holds no handle, and its call will end with an error. -/
def Tenant.Barred (name : String) (missing : Resource) (tenant : Tenant K B) : Prop :=
  tenant.handles = [] ∧
    match tenant.stage with
    | .idle => True
    | .obtaining program => Refused name missing program
    | .destroying _ => False

/-- A process of the name changes nothing and obtains nothing. -/
theorem Tenant.Barred.step {kernel after : Kernel B} {tenant next : Tenant K B}
    {event : TenantEvent} (barred : tenant.Barred tenant.name missing)
    (holds : kernel.Stuck tenant.name missing)
    (moves : Moves platform kernel tenant event after next) :
    after = kernel ∧ next.Barred tenant.name missing := by
  obtain ⟨nothing, stage⟩ := barred
  cases moves with
  | begins idle begins =>
    cases begins with
    | create capacity recordSize =>
      exact ⟨rfl, nothing, SharedTable.createWithSize_refused platform _ _ capacity recordSize⟩
    | openExisting => exact ⟨rfl, nothing, SharedTable.openExisting_refused platform _ _⟩
    | destroy found =>
      rw [nothing] at found
      cases found
  | obtaining faults running =>
    rw [running] at stage
    obtain ⟨allowed, kept⟩ := stage
    obtain ⟨same, learned⟩ := holds.attempt platform faults allowed
    exact ⟨same, nothing, kept _ () learned⟩
  | destroying faults running =>
    rw [running] at stage
    exact stage.elim
  | obtained ended =>
    rw [ended] at stage
    obtain ⟨e, impossible⟩ := stage
    cases impossible
  | refused ended => exact ⟨rfl, nothing, trivial⟩
  | destroyed ended =>
    rw [ended] at stage
    exact stage.elim
  | stores memory member which =>
    rw [nothing] at member
    cases member
  | locks exists_set values member which =>
    rw [nothing] at member
    cases member

section Runs
variable [DecidableEq ι] {config last : Config ι (Kernel B) (Tenant K B)}
  {trace : List (ι × TenantEvent)}

/-- Once the data block of a name is there without one of the other resources, no
interleaving of creations and openings of that name, and of anything that happens to
tables apart from it, ever yields a handle on it or changes what is there. -/
theorem stuck_stays (name : String) (missing : Resource) (unambiguous : config.shared.Unambiguous)
    (fresh : ∀ c, (config.client c).handles = [] ∧ (config.client c).stage = .idle)
    (others : ∀ c, (config.client c).name = name ∨ Apart name (config.client c).name)
    (present : config.shared.names name ≠ none)
    (absent : config.shared.resource name missing = none)
    (run : Run (Step (Moves platform)) config trace last) :
    Kernel.Spares name config.shared last.shared ∧
      ∀ c, (config.client c).name = name → (last.client c).handles = [] := by
  have kept : Kernel.Spares name config.shared last.shared ∧ Separated name last ∧
      (∀ c, (last.client c).name = (config.client c).name) ∧
      ∀ c, (config.client c).name = name → (last.client c).Barred name missing := by
    refine run.invariant (P := fun later => Kernel.Spares name config.shared later.shared ∧
      Separated name later ∧ (∀ c, (later.client c).name = (config.client c).name) ∧
      ∀ c, (config.client c).name = name → (later.client c).Barred name missing) ?_ ?_
    · rintro now ⟨c, event⟩ next ⟨spared, separated, named, barred⟩ stepped
      have separated' := separated.step stepped
      have holds := Kernel.Stuck.spared ⟨present, absent⟩ spared
      obtain ⟨moves⟩ := stepped
      rename_i shared own
      obtain ⟨same, target, change, acts⟩ := moves.change name
      have named' : ∀ d, ((now.moved c shared own).client d).name = (config.client d).name :=
        Config.moved_forall (P := fun d (tenant : Tenant K B) =>
          tenant.name = (config.client d).name) _ _ _ _ (same.trans (named c)) (fun d _ => named d)
      by_cases mine : (config.client c).name = name
      · have here : (now.client c).name = name := (named c).trans mine
        obtain ⟨unchanged, barred'⟩ : shared = now.shared ∧ own.Barred name missing := by
          have before := barred c mine
          rw [← here] at before holds
          have after := before.step holds moves
          rwa [here] at after
        subst unchanged
        exact ⟨spared, separated', named', Config.moved_forall (P := fun d (tenant : Tenant K B) =>
          (config.client d).name = name → tenant.Barred name missing) _ _ _ _ (fun _ => barred')
          (fun d _ => barred d)⟩
      · have apart : Apart name (now.client c).name := by
          rw [named c]
          exact (others c).resolve_left mine
        refine ⟨spared.trans ?_, separated', named', ?_⟩
        · obtain same | foreign := acts (separated.confined c apart)
          · subst same
            exact .refl name now.shared
          · exact change.spares foreign
        · exact Config.moved_forall (P := fun d (tenant : Tenant K B) =>
            (config.client d).name = name → tenant.Barred name missing) _ _ _ _
            (fun same => absurd same mine) (fun d _ => barred d)
    · refine ⟨.refl name _, ⟨unambiguous, fun c apart => ?_⟩, fun _ => rfl, fun c _ => ?_⟩
      · exact start_confined apart (fresh c).1 (fresh c).2
      · refine ⟨(fresh c).1, ?_⟩
        rw [(fresh c).2]
        trivial
  exact ⟨kept.1, fun c mine => (kept.2.2.2 c mine).1⟩

end Runs

/-! ### After a failed creation -/

/-- The creation of `BB` has failed at its semaphores, whose key the table `Aa` has. -/
def Kernel.afterCollision : Kernel (Node UInt8) :=
  ((SharedTable.createWithSize .sample (.cell UInt8) UInt8.toNat "BB" 1 1).program.run
    (Platform.sample.exec noFault) .afterOther).2

theorem Kernel.afterCollision_unambiguous : afterCollision.Unambiguous := by
  have preserves : ∀ (kernel : Kernel (Node UInt8)) action, kernel.Unambiguous →
      (Platform.sample.exec noFault kernel action).2.Unambiguous := fun kernel action before =>
    before.ages (exec_change .sample noFault kernel action).ages
  exact run_preserves _ preserves _ (run_preserves _ preserves _ (empty_unambiguous _))

/-- Two processes that try to create and to open `BB`. -/
def stuckTenants : Config Bool (Kernel (Node UInt8)) (Tenant UInt8 (Node UInt8)) where
  shared := .afterCollision
  client _ := .start "BB" (.cell UInt8) UInt8.toNat

/-- The opening of `BB` is under way, in vain. -/
theorem stuck_stays_sample :
    ∃ trace last, Run (Step (Moves .sample)) stuckTenants trace last ∧ trace ≠ [] ∧
      Kernel.Spares "BB" stuckTenants.shared last.shared ∧ (last.client true).handles = [] := by
  have run : Run (Step (Moves .sample)) stuckTenants [(true, .began .openExisting)] _ :=
    .next (.move (.begins rfl .openExisting)) (.refl _)
  obtain ⟨spared, nothing⟩ := stuck_stays "BB" .indexBlock Kernel.afterCollision_unambiguous
    (fun _ => ⟨rfl, rfl⟩) (fun _ => .inl rfl) (by decide +kernel) (by decide +kernel) run
  exact ⟨_, _, run, nofun, spared, nothing true rfl⟩

end InMemoryTable
