import InMemoryTable.Library.Interleaving

/-! Programs that act on a shared state through atomic calls: what a program
does alone, and rely and guarantee rules for programs that run side by side. -/
open Interleaving Transition

variable {A S E α β ι : Type} {Reply : A → Type}

/-- A program waits for the reply to a call before it goes on. -/
inductive Program (A : Type) (Reply : A → Type) (α : Type) where
  | ret (value : α)
  | call (action : A) (next : Reply action → Program A Reply α)

/-- A program that ends with a result or an error. -/
structure Fallible (A : Type) (Reply : A → Type) (E α : Type) where
  program : Program A Reply (Except E α)

namespace Program

def bind : Program A Reply α → (α → Program A Reply β) → Program A Reply β
  | ret value, rest => rest value
  | call action next, rest => call action (fun reply => (next reply).bind rest)

/-- An error ends the program, a result is passed on. -/
def andThen (rest : α → Fallible A Reply E β) : Except E α → Program A Reply (Except E β)
  | .ok value => (rest value).program
  | .error e => ret (.error e)

instance : Monad (Fallible A Reply E) where
  pure value := ⟨ret (.ok value)⟩
  bind first rest := ⟨first.program.bind (andThen rest)⟩

def throw (e : E) : Fallible A Reply E α := ⟨ret (.error e)⟩

/-- A computation that makes no call. -/
def ofExcept (result : Except E α) : Fallible A Reply E α := ⟨ret result⟩

/-- A call whose reply is the result. -/
def perform (action : A) : Fallible A Reply E (Reply action) :=
  ⟨call action (fun reply => ret (.ok reply))⟩

theorem bind_assoc {γ : Type} (program : Program A Reply α) (rest : α → Program A Reply β)
    (last : β → Program A Reply γ) :
    (program.bind rest).bind last = program.bind (fun value => (rest value).bind last) := by
  induction program with
  | ret value => rfl
  | call action next ih => simp only [bind, ih]

@[simp] theorem fallible_assoc {γ : Type} (first : Fallible A Reply E α)
    (rest : α → Fallible A Reply E β) (last : β → Fallible A Reply E γ) :
    first >>= rest >>= last = first >>= fun value => rest value >>= last := by
  apply congrArg Fallible.mk
  refine (bind_assoc _ _ _).trans (congrArg _ (funext fun result => ?_))
  cases result <;> rfl

@[simp] theorem pure_andThen (value : α) (rest : α → Fallible A Reply E β) :
    pure value >>= rest = rest value := rfl

@[simp] theorem throw_andThen (e : E) (rest : α → Fallible A Reply E β) :
    throw e >>= rest = throw e := rfl

variable (exec : S → (action : A) → Reply action × S)

/-- The program alone, from the state `s`. -/
def run : Program A Reply α → S → α × S
  | ret value, s => (value, s)
  | call action next, s => run (next (exec s action).1) (exec s action).2

/-- The next call of the program. -/
def advance (s : S) : Program A Reply α → Option (A × S × Program A Reply α)
  | ret _ => none
  | call action next => some (action, (exec s action).2, next (exec s action).1)

theorem run_bind (program : Program A Reply α) (rest : α → Program A Reply β) (s : S) :
    (program.bind rest).run exec s =
      (rest (program.run exec s).1).run exec (program.run exec s).2 := by
  induction program generalizing s with
  | ret value => rfl
  | call action next ih => exact ih _ _

section Fallible
variable {first : Fallible A Reply E α} {rest : α → Fallible A Reply E β} {s t : S}

theorem run_ok {value : α} (ran : first.program.run exec s = (.ok value, t)) :
    (first >>= rest).program.run exec s = (rest value).program.run exec t := by
  change (first.program.bind (andThen rest)).run exec s = _
  rw [run_bind, ran]
  rfl

theorem run_error {e : E} (ran : first.program.run exec s = (.error e, t)) :
    (first >>= rest).program.run exec s = (.error e, t) := by
  change (first.program.bind (andThen rest)).run exec s = _
  rw [run_bind, ran]
  rfl

@[simp] theorem run_pure (value : α) :
    (pure value : Fallible A Reply E α).program.run exec s = (.ok value, s) := rfl

@[simp] theorem run_throw (e : E) :
    (throw e : Fallible A Reply E α).program.run exec s = (.error e, s) := rfl

@[simp] theorem run_perform (action : A) (rest : Reply action → Fallible A Reply E β) :
    (perform action >>= rest).program.run exec s =
      (rest (exec s action).1).program.run exec (exec s action).2 := rfl

theorem run_reply {action : A} {rest : Reply action → Fallible A Reply E β} {reply : Reply action}
    (answers : exec s action = (reply, t)) :
    (perform action >>= rest).program.run exec s = (rest reply).program.run exec t := by
  rw [run_perform, answers]

theorem run_ofExcept {result : Except E α} {value : α} (ok : result = .ok value) :
    (ofExcept result >>= rest).program.run exec s = (rest value).program.run exec s := by
  subst ok
  rfl

end Fallible

/-- A property of the state that no call changes holds after the program. -/
theorem run_preserves {P : S → Prop} (preserves : ∀ s action, P s → P (exec s action).2)
    (program : Program A Reply α) {s : S} (initial : P s) : P (program.run exec s).2 := by
  induction program generalizing s with
  | ret value => exact initial
  | call action next ih => exact ih _ (preserves s action initial)

/-! ### The calls made -/

/-- The calls of the program alone, from the state `s`. -/
def trace : Program A Reply α → S → List A
  | ret _, _ => []
  | call action next, s => action :: trace (next (exec s action).1) (exec s action).2

theorem trace_bind (program : Program A Reply α) (rest : α → Program A Reply β) (s : S) :
    (program.bind rest).trace exec s =
      program.trace exec s ++
        (rest (program.run exec s).1).trace exec (program.run exec s).2 := by
  induction program generalizing s with
  | ret value => rfl
  | call action next ih => exact congrArg (action :: ·) (ih _ _)

/-- Whatever the replies are, the program makes only calls with `P`. -/
def Only (P : A → Prop) : Program A Reply α → Prop
  | ret _ => True
  | call action next => P action ∧ ∀ reply, (next reply).Only P

theorem Only.bind {P : A → Prop} {program : Program A Reply α} {rest : α → Program A Reply β}
    (first : program.Only P) (second : ∀ value, (rest value).Only P) :
    (program.bind rest).Only P := by
  induction program with
  | ret value => exact second value
  | call action next ih => exact ⟨first.1, fun reply => ih reply (first.2 reply)⟩

theorem Only.trace {P : A → Prop} {program : Program A Reply α} (only : program.Only P) (s : S) :
    ∀ action ∈ program.trace exec s, P action := by
  induction program generalizing s with
  | ret value => exact fun action member => absurd member List.not_mem_nil
  | call action next ih =>
    intro other member
    rcases List.mem_cons.mp member with rfl | later
    · exact only.1
    · exact ih _ (only.2 _) _ other later

section Fallible
variable {first : Fallible A Reply E α} {rest : α → Fallible A Reply E β} {s t : S}

theorem trace_ok {value : α} (ran : first.program.run exec s = (.ok value, t)) :
    (first >>= rest).program.trace exec s =
      first.program.trace exec s ++ (rest value).program.trace exec t := by
  change (first.program.bind (andThen rest)).trace exec s = _
  rw [trace_bind, ran]
  rfl

theorem trace_error {e : E} (ran : first.program.run exec s = (.error e, t)) :
    (first >>= rest).program.trace exec s = first.program.trace exec s := by
  change (first.program.bind (andThen rest)).trace exec s = _
  rw [trace_bind, ran]
  exact List.append_nil _

theorem Only.seq {P : A → Prop} (before : first.program.Only P)
    (after : ∀ value, (rest value).program.Only P) : (first >>= rest).program.Only P := by
  refine before.bind fun result => ?_
  cases result with
  | ok value => exact after value
  | error e => exact trivial

end Fallible

/-! ### Rely and guarantee -/

/-- Started in `s`, while others change the state only within `rely`, the
program changes it only within `guarantee` and ends with `post`. -/
def Sat (rely guarantee : S → S → Prop) :
    Program A Reply α → S → (α → S → Prop) → Prop
  | ret value, s, post => ∀ t, rely s t → post value t
  | call action next, s, post => ∀ t, rely s t → guarantee t (exec t action).2 ∧
      Sat rely guarantee (next (exec t action).1) (exec t action).2 post

variable {exec} {rely guarantee : S → S → Prop} {s t : S} {program : Program A Reply α}
  {post : α → S → Prop}

namespace Sat

/-- Interference before the first call does no harm. -/
theorem stable (transitive : ∀ {s t u}, rely s t → rely t u → rely s u)
    (holds : program.Sat exec rely guarantee s post) (interference : rely s t) :
    program.Sat exec rely guarantee t post := by
  cases program with
  | ret value => exact fun u later => holds u (transitive interference later)
  | call action next => exact fun u later => holds u (transitive interference later)

theorem mono {weaker : α → S → Prop} (holds : program.Sat exec rely guarantee s post)
    (implies : ∀ value t, post value t → weaker value t) :
    program.Sat exec rely guarantee s weaker := by
  induction program generalizing s with
  | ret value => exact fun t later => implies value t (holds t later)
  | call action next ih =>
    intro t later
    obtain ⟨step, remaining⟩ := holds t later
    exact ⟨step, ih _ remaining⟩

theorem bind (reflexive : ∀ s, rely s s) {rest : α → Program A Reply β} {post : β → S → Prop}
    (holds : program.Sat exec rely guarantee s
      (fun value t => (rest value).Sat exec rely guarantee t post)) :
    (program.bind rest).Sat exec rely guarantee s post := by
  induction program generalizing s with
  | ret value => exact holds s (reflexive s)
  | call action next ih =>
    intro t later
    obtain ⟨step, remaining⟩ := holds t later
    exact ⟨step, ih _ remaining⟩

section Fallible
variable {first : Fallible A Reply E α} {rest : α → Fallible A Reply E β}
  {result : Except E β → S → Prop}

theorem pure {value : β} (holds : ∀ t, rely s t → result (.ok value) t) :
    (Pure.pure value : Fallible A Reply E β).program.Sat exec rely guarantee s result := holds

theorem throw {e : E} (holds : ∀ t, rely s t → result (.error e) t) :
    (Program.throw e : Fallible A Reply E β).program.Sat exec rely guarantee s result := holds

theorem ofExcept {outcome : Except E α} {value : α} (ok : outcome = .ok value)
    (holds : (rest value).program.Sat exec rely guarantee s result) :
    (Program.ofExcept outcome >>= rest).program.Sat exec rely guarantee s result := by
  subst ok
  exact holds

/-- The result of the first program is passed on, its error ends the sequence. -/
theorem seq (reflexive : ∀ s, rely s s)
    (holds : first.program.Sat exec rely guarantee s (fun outcome t =>
      match outcome with
      | .ok value => (rest value).program.Sat exec rely guarantee t result
      | .error e => ∀ u, rely t u → result (.error e) u)) :
    (first >>= rest).program.Sat exec rely guarantee s result := by
  refine bind reflexive (holds.mono fun outcome t sat => ?_)
  cases outcome with
  | ok value => exact sat
  | error e => exact sat

/-- A call that only looks. -/
theorem ask {action : A} {rest : Reply action → Fallible A Reply E β}
    (unchanged : ∀ t, (exec t action).2 = t) (silent : ∀ t, guarantee t t)
    (holds : ∀ t, rely s t → (rest (exec t action).1).program.Sat exec rely guarantee t result) :
    (Program.perform action >>= rest).program.Sat exec rely guarantee s result := by
  intro t later
  rw [unchanged]
  exact ⟨silent t, holds t later⟩

/-- A call of a program that nobody disturbs. -/
theorem reply {action : A} {rest : Reply action → Fallible A Reply E β} {answer : Reply action}
    (answers : exec s action = (answer, t)) (step : guarantee s t)
    (holds : (rest answer).program.Sat exec Eq guarantee t result) :
    (Program.perform action >>= rest).program.Sat exec Eq guarantee s result := by
  rintro u rfl
  rw [answers]
  exact ⟨step, holds⟩

end Fallible

section Parallel
variable [DecidableEq ι] {relies guarantees : ι → S → S → Prop} {posts : ι → α → S → Prop}
  {config last : Config ι S (Program A Reply α)} {trace : List (ι × A)}

theorem parallel_step (transitive : ∀ c {s t u}, relies c s t → relies c t u → relies c s u)
    (reflexive : ∀ c s, relies c s s)
    (apart : ∀ c d, c ≠ d → ∀ s t, guarantees c s t → relies d s t) {label : ι × A}
    (holds : ∀ c, (config.client c).Sat exec (relies c) (guarantees c) config.shared (posts c))
    (stepped : Step (Computes (advance exec)) config label last) (c : ι) :
    (last.client c).Sat exec (relies c) (guarantees c) last.shared (posts c) := by
  cases stepped with
  | @move mover action shared own moved =>
    have running := holds mover
    generalize config.client mover = before at moved running
    cases before with
    | ret value => simp [Computes, advance] at moved
    | call action next =>
      simp only [Computes, advance, Option.some.injEq, Prod.mk.injEq] at moved
      obtain ⟨-, rfl, rfl⟩ := moved
      obtain ⟨step, remaining⟩ := running _ (reflexive mover _)
      by_cases same : c = mover
      · subst same
        rw [Config.moved_self]
        exact remaining
      · rw [Config.moved_other _ _ _ _ same]
        exact (holds c).stable (transitive c) (apart mover c (Ne.symm same) _ _ step)

/-- Programs each of which tolerates the steps of all others keep their
promises in every interleaving. -/
theorem parallel (transitive : ∀ c {s t u}, relies c s t → relies c t u → relies c s u)
    (reflexive : ∀ c s, relies c s s)
    (apart : ∀ c d, c ≠ d → ∀ s t, guarantees c s t → relies d s t)
    (holds : ∀ c, (config.client c).Sat exec (relies c) (guarantees c) config.shared (posts c))
    (run : Run (Step (Computes (advance exec))) config trace last) (c : ι) :
    (last.client c).Sat exec (relies c) (guarantees c) last.shared (posts c) := by
  induction run with
  | refl => exact holds c
  | next head tail ih => exact ih (parallel_step transitive reflexive apart holds head)

end Parallel
end Sat
end Program
