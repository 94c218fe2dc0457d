import InMemoryTable.IndexRun
import InMemoryTable.Library.Interleaving
import InMemoryTable.Library.Ownership
import InMemoryTable.Semaphore

/-! The semaphore of the index. The calls of the index bind the outcome of
`lock_table` to a variable and run their body whatever it is; what was not
taken is not given back. -/
namespace InMemoryTable
open Interleaving Transition

/-- The outcome of `lock_table`, in the variable `_lock` until the call ends. -/
abbrev IndexLock := Except InMemoryTableError Unit

/-- `semop` with operation -1 that fails if there is a `failure`. -/
def Semaphores.lockUnless (failure : Option Errno) (size : Nat) (values : Semaphores)
    (semNum : Nat) : Except Errno (Option Semaphores) :=
  match failure with
  | some errno => .error errno
  | none => lock size values semNum

namespace Index

/-- `SemaphoreSet::create(&block_name, 0)` -/
def semaphores (semId : Nat) : SemaphoreSet := .ofRecords semId 0

variable (semId : Nat) (failure : Option Errno) (values : Semaphores)

/-- `let _lock = self.semaphores.lock_table()`; `none` as long as the caller waits. -/
def lockTable : Option (IndexLock × Semaphores) :=
  match (semaphores semId).lockTable
      (Semaphores.lockUnless failure (semaphores semId).stripes values) with
  | .error e => some (.error e, values)
  | .ok none => none
  | .ok (some taken) => some (.ok (), taken)

/-- `_lock` goes out of scope. -/
def dropLock : IndexLock → Semaphores
  | .ok () => values.unlock (semaphores semId).tableNumber
  | .error _ => values

variable {semId failure values} {lock : IndexLock} {after : Semaphores}

theorem lockTable_eq : lockTable semId none values =
    if 0 < values 0 then some (.ok (), values.take 0) else none := by
  have number : asU16 (semaphores semId).numRecords = 0 := rfl
  have stripes : (semaphores semId).stripes = 1 := rfl
  simp only [lockTable, SemaphoreSet.lockTable, Locker.tryLock, Semaphores.lockUnless,
    Semaphores.lock, number, stripes, Nat.zero_lt_one, if_true]
  by_cases positive : 0 < values 0
  · simp only [positive, if_true]
  · simp only [positive, if_false]

theorem lockTable_cases (tried : lockTable semId failure values = some (lock, after)) :
    (∃ errno e, failure = some errno ∧ lock = .error e ∧ after = values) ∨
    (failure = none ∧ lock = .ok () ∧ 0 < values 0 ∧ after = values.take 0) := by
  cases failure with
  | some errno =>
    cases tried
    exact .inl ⟨errno, _, rfl, rfl, rfl⟩
  | none =>
    rw [lockTable_eq] at tried
    split at tried
    · rename_i positive
      cases tried
      exact .inr ⟨rfl, rfl, positive, rfl⟩
    · cases tried

end Index

/-- The semaphore that a lock stands for. -/
def IndexLock.holding : IndexLock → Option Nat
  | .ok () => some 0
  | .error _ => none

structure IndexShared (B : Type) where
  block : IndexBlock B
  semaphores : Semaphores

/-- The next step of a client of the index. -/
inductive IndexPhase (K : Type) where
  | idle
  | lockTable (call : IndexCall K)
  | body (lock : IndexLock) (call : IndexCall K)
  | drop (lock : IndexLock) (answer : IndexReply)
  | reply (answer : IndexReply)

inductive IndexEvent (K : Type) where
  | called (call : IndexCall K)
  | locked (lock : IndexLock)
  | ran
  | dropped (lock : IndexLock)
  | replied (answer : IndexReply)

namespace IndexPhase
variable {K B : Type}

/-- The body of a call reads or writes buckets and nodes. -/
def InBody : IndexPhase K → Prop
  | .body _ _ => True
  | _ => False

/-- The body runs although the lock was not taken. -/
def Unlocked : IndexPhase K → Prop
  | .body (.error _) _ => True
  | _ => False

def holding : IndexPhase K → Option Nat
  | .body lock _ | .drop lock _ => lock.holding
  | _ => none

variable [DecidableEq K] (index : Index K B) (semId : Nat) (failure : Option Errno)
  (shared : IndexShared B)

/-- One step inside a call; if it acquires the semaphore, `failure` decides
whether it fails. -/
def advance : IndexPhase K → Option (IndexEvent K × IndexShared B × IndexPhase K)
  | .idle => none
  | .lockTable call => do
    let (lock, semaphores) ← Index.lockTable semId failure shared.semaphores
    some (.locked lock, { shared with semaphores }, .body lock call)
  | .body lock call => do
    let (answer, block) ← index.call shared.block call
    some (.ran, { shared with block }, .drop lock answer)
  | .drop lock answer =>
    some (.dropped lock,
      { shared with semaphores := Index.dropLock semId shared.semaphores lock }, .reply answer)
  | .reply answer => some (.replied answer, shared, .idle)

end IndexPhase

/-- A client starts any call, or goes on with its own, with any outcome of the
acquire. -/
inductive IndexStep {K B : Type} [DecidableEq K] (index : Index K B) (semId : Nat)
    (shared : IndexShared B) :
    IndexPhase K → IndexEvent K → IndexShared B → IndexPhase K → Prop where
  | called (call : IndexCall K) :
    IndexStep index semId shared .idle (.called call) shared (.lockTable call)
  | advanced {phase next : IndexPhase K} {event : IndexEvent K} {after : IndexShared B}
      (failure : Option Errno) :
      phase.advance index semId failure shared = some (event, after, next) →
      IndexStep index semId shared phase event after next

section Exclusion
variable {K B ι : Type} [DecidableEq K] {index : Index K B} {semId : Nat}
  {shared after : IndexShared B} {phase next : IndexPhase K} {event : IndexEvent K}
  {config last : Config ι (IndexShared B) (IndexPhase K)}

/-- What a step does to the semaphore, and who comes into a body by it. -/
inductive IndexEffect (shared : IndexShared B) :
    IndexPhase K → IndexEvent K → IndexShared B → IndexPhase K → Prop where
  | failed (e : InMemoryTableError) (call : IndexCall K) :
      IndexEffect shared (.lockTable call) (.locked (.error e)) shared (.body (.error e) call)
  | locked (call : IndexCall K) : 0 < shared.semaphores 0 →
      IndexEffect shared (.lockTable call) (.locked (.ok ()))
        { shared with semaphores := shared.semaphores.take 0 } (.body (.ok ()) call)
  | unlocked {phase next : IndexPhase K} : phase.holding = some 0 → next.holding = none →
      ¬ next.InBody →
      IndexEffect shared phase (.dropped (.ok ()))
        { shared with semaphores := shared.semaphores.unlock 0 } next
  | other {phase next : IndexPhase K} {event : IndexEvent K} {after : IndexShared B} :
      (∀ lock, event ≠ .locked lock) → after.semaphores = shared.semaphores →
      next.holding = phase.holding → ¬ next.InBody →
      IndexEffect shared phase event after next

theorem IndexStep.effect (stepped : IndexStep index semId shared phase event after next) :
    IndexEffect shared phase event after next := by
  cases stepped with
  | called call => exact .other (by simp) rfl rfl id
  | advanced failure advanced =>
    cases phase with
    | idle => cases advanced
    | lockTable call =>
      simp only [IndexPhase.advance, Option.bind_eq_bind, Option.bind_eq_some_iff] at advanced
      obtain ⟨⟨lock, semaphores⟩, tried, advanced⟩ := advanced
      cases advanced
      obtain ⟨_, e, _, rfl, rfl⟩ | ⟨_, rfl, positive, rfl⟩ := Index.lockTable_cases tried
      · exact .failed e call
      · exact .locked call positive
    | body lock call =>
      simp only [IndexPhase.advance, Option.bind_eq_bind, Option.bind_eq_some_iff] at advanced
      obtain ⟨⟨reply, block⟩, _, advanced⟩ := advanced
      cases advanced
      exact .other (by simp) rfl rfl id
    | drop lock reply =>
      cases advanced
      cases lock with
      | error e => exact .other (by simp) rfl rfl id
      | ok done => exact .unlocked rfl rfl id
    | reply reply =>
      cases advanced
      exact .other (by simp) rfl rfl id

/-- The semaphore has one holder at most, and one client at most is in a body. -/
structure IndexExclusive (config : Config ι (IndexShared B) (IndexPhase K)) : Prop where
  owned : Ownership.Exclusive 1 config.shared.semaphores (fun c => (config.client c).holding)
  alone : ∀ c d, (config.client c).InBody → (config.client d).InBody → c = d

omit [DecidableEq K] in
theorem IndexExclusive.initial (free : config.shared.semaphores 0 = 1)
    (idle : ∀ c, config.client c = .idle) : IndexExclusive config where
  owned := .initial (fun x below => by rwa [Nat.lt_one_iff.mp below])
    (fun c => by rw [idle c]; rfl)
  alone c d inside := by
    rw [idle c] at inside
    exact inside.elim

variable [DecidableEq ι] {label : ι × IndexEvent K}

/-- An acquire fails while no other client is in a body; and while a client is
in a body although its own acquire has failed, no other one succeeds. -/
def Undisturbed (config : Config ι (IndexShared B) (IndexPhase K)) : ι × IndexEvent K → Prop
  | (c, .locked (.error _)) => ∀ d ≠ c, ¬ (config.client d).InBody
  | (c, .locked (.ok ())) => ∀ d ≠ c, ¬ (config.client d).Unlocked
  | _ => True

omit [DecidableEq K] in
theorem IndexPhase.Unlocked.inBody {phase : IndexPhase K} (unlocked : phase.Unlocked) :
    phase.InBody := by
  cases phase with
  | body lock call => trivial
  | _ => exact unlocked.elim

omit [DecidableEq K] in
theorem IndexPhase.inBody_cases {phase : IndexPhase K} (inside : phase.InBody) :
    phase.holding = some 0 ∨ phase.Unlocked := by
  cases phase with
  | body lock call =>
    cases lock with
    | ok done => exact .inl rfl
    | error e => exact .inr trivial
  | _ => exact inside.elim

theorem IndexExclusive.step (exclusive : IndexExclusive config)
    (stepped : Guarded (Step (IndexStep index semId)) Undisturbed config label last) :
    IndexExclusive last := by
  obtain ⟨⟨moves⟩, undisturbed⟩ := stepped
  rename_i c event shared phase
  generalize own : config.client c = before at moves
  constructor
  · rw [Config.moved_comp, Config.moved_shared]
    cases moves.effect with
    | failed e call =>
      rw [Function.update_eq_self_iff.mpr (by rw [own]; rfl)]
      exact exclusive.owned
    | locked call positive =>
      exact exclusive.owned.acquire (by rw [own]; rfl) Nat.zero_lt_one positive
    | unlocked held released _ =>
      rw [released]
      exact exclusive.owned.release (by rw [own, held])
    | other _ semaphores same _ =>
      rw [semaphores, Function.update_eq_self_iff.mpr (by rw [own, same])]
      exact exclusive.owned
  · apply config.moved_unique c _ _ exclusive.alone
    intro inside d different other
    cases moves.effect with
    | failed e call => exact undisturbed d different other
    | locked call positive =>
      rcases IndexPhase.inBody_cases other with held | unlocked
      · exact exclusive.owned.not_held positive d held
      · exact undisturbed d different unlocked
    | unlocked _ _ outside => exact outside inside
    | other _ _ _ outside => exact outside inside

/-- A step that does not meet the condition brings two clients into bodies. -/
theorem IndexStep.disturbed (stepped : Step (IndexStep index semId) config label last)
    (disturbed : ¬ Undisturbed config label) :
    ∃ c d, c ≠ d ∧ (last.client c).InBody ∧ (last.client d).InBody := by
  obtain ⟨moves⟩ := stepped
  rename_i c event shared phase
  have enters : phase.InBody ∧ ∃ d ≠ c, (config.client d).InBody := by
    generalize config.client c = before at moves
    cases moves.effect with
    | failed e call =>
      simp only [Undisturbed, not_forall, not_not] at disturbed
      obtain ⟨d, different, inside⟩ := disturbed
      exact ⟨trivial, d, different, inside⟩
    | locked call positive =>
      simp only [Undisturbed, not_forall, not_not] at disturbed
      obtain ⟨d, different, unlocked⟩ := disturbed
      exact ⟨trivial, d, different, unlocked.inBody⟩
    | unlocked => exact absurd trivial disturbed
    | other quiet =>
      cases event with
      | locked lock => exact absurd rfl (quiet lock)
      | _ => exact absurd trivial disturbed
  obtain ⟨inside, d, different, other⟩ := enters
  refine ⟨c, d, different.symm, ?_, ?_⟩
  · rwa [Config.moved_self]
  · rwa [Config.moved_other _ _ _ _ different]

/-- At most one client is in the body of a call in every state of a run whose
steps meet the condition; a step that does not meet it brings a second one in. -/
theorem index_bodies_exclusive (index : Index K B) (semId : Nat)
    (config : Config ι (IndexShared B) (IndexPhase K))
    (free : config.shared.semaphores 0 = 1) (idle : ∀ c, config.client c = .idle) :
    (∀ trace last, Run (Guarded (Step (IndexStep index semId)) Undisturbed) config trace last →
      ∀ c d, (last.client c).InBody → (last.client d).InBody → c = d) ∧
    ∀ trace middle label after, Run (Step (IndexStep index semId)) config trace middle →
      Step (IndexStep index semId) middle label after → ¬ Undisturbed middle label →
      ¬ ∀ c d, (after.client c).InBody → (after.client d).InBody → c = d := by
  constructor
  · intro trace last run
    have exclusive := run.invariant (P := IndexExclusive)
      (fun exclusive stepped => exclusive.step stepped) (.initial free idle)
    exact exclusive.alone
  · intro trace middle label after _ stepped disturbed exclusive
    obtain ⟨c, d, different, first, second⟩ := IndexStep.disturbed stepped disturbed
    exact different (exclusive c d first second)

end Exclusion

/-- Two clients of an index of two nodes. -/
def twoIndexClients : Config Bool (IndexShared (Node Nat)) (IndexPhase Nat) :=
  { shared :=
      { block := (Index.handle (.cell Nat) id 2).newBlock 2 (fun _ => ⟨.free, 0, []⟩)
        semaphores := fun _ => 1 }
    client := fun _ => .idle }

/-- One client is in its body, the other one waits. -/
theorem index_bodies_exclusive_sample :
    ∃ trace last, Run (Guarded (Step (IndexStep (Index.handle (.cell Nat) id 2) 0)) Undisturbed)
        twoIndexClients trace last ∧
      (last.client false).InBody ∧ ∀ d, (last.client d).InBody → false = d := by
  have run : ∃ trace last,
      Run (Guarded (Step (IndexStep (Index.handle (.cell Nat) id 2) 0)) Undisturbed)
        twoIndexClients trace last ∧ (last.client false).InBody := by
    refine ⟨_, _, .next ⟨.move (c := false) (.called (.get 7)), trivial⟩
      (.next ⟨.again (.advanced none rfl), ?_⟩ (.refl _)), ?_⟩
    · intro d different unlocked
      cases d with
      | false => exact different rfl
      | true => exact unlocked
    · exact trivial
  obtain ⟨trace, last, run, inside⟩ := run
  exact ⟨trace, last, run, inside, fun d =>
    (index_bodies_exclusive _ 0 twoIndexClients rfl (fun _ => rfl)).1 trace last run false d inside⟩

/-- While one client is in its body, `semop` fails with `EINTR` for the other. -/
theorem index_bodies_overlap :
    ¬ ∀ trace last,
      Run (Step (IndexStep (Index.handle (.cell Nat) id 2) 0)) twoIndexClients trace last →
      ∀ c d, (last.client c).InBody → (last.client d).InBody → c = d := by
  intro exclusive
  have overlap := exclusive _ _
    (.next (.move (c := false) (.called (.get 7))) (.next (.again (.advanced none rfl))
      (.next (.move (c := true) (.called (.insert 7 0)))
        (.next (.again (.advanced (some (.other 4)) rfl)) (.refl _)))))
  exact absurd (overlap false true trivial trivial) (by decide)

end InMemoryTable
