import InMemoryTable.Library.Program

/-! Contracts of a program, read off its text: whatever the replies are, it makes
only calls that its ghost state allows, and each reply moves the ghost state on.
The state that the calls act on does not occur. -/
/-- The calls that a ghost state allows, and what it may become with the reply. -/
structure Contract (A : Type) (Reply : A → Type) (H : Type) where
  allows : H → A → Prop
  learns : H → (action : A) → Reply action → H → Prop

namespace Program
variable {A E H α β : Type} {Reply : A → Type} {contract : Contract A Reply H}

/-- The program keeps the contract and ends with `post`. -/
def Keeps (contract : Contract A Reply H) : Program A Reply α → H → (α → H → Prop) → Prop
  | ret value, ghost, post => post value ghost
  | call action next, ghost, post => contract.allows ghost action ∧
      ∀ reply later, contract.learns ghost action reply later →
        Keeps contract (next reply) later post

namespace Keeps
variable {program : Program A Reply α} {ghost : H} {post : α → H → Prop}

theorem mono {weaker : α → H → Prop} (keeps : program.Keeps contract ghost post)
    (implies : ∀ value later, post value later → weaker value later) :
    program.Keeps contract ghost weaker := by
  induction program generalizing ghost with
  | ret value => exact implies value ghost keeps
  | call action next ih =>
    exact ⟨keeps.1, fun reply later learned => ih reply (keeps.2 reply later learned)⟩

theorem bind {rest : α → Program A Reply β} {post : β → H → Prop}
    (keeps : program.Keeps contract ghost
      (fun value later => (rest value).Keeps contract later post)) :
    (program.bind rest).Keeps contract ghost post := by
  induction program generalizing ghost with
  | ret value => exact keeps
  | call action next ih =>
    exact ⟨keeps.1, fun reply later learned => ih reply (keeps.2 reply later learned)⟩

section Fallible
variable {first : Fallible A Reply E α} {rest : α → Fallible A Reply E β}
  {result : Except E β → H → Prop}

theorem pure {value : β} (holds : result (.ok value) ghost) :
    (Pure.pure value : Fallible A Reply E β).program.Keeps contract ghost result := holds

theorem throw {e : E} (holds : result (.error e) ghost) :
    (Program.throw e : Fallible A Reply E β).program.Keeps contract ghost result := holds

/-- The result of the first program is passed on, its error ends the sequence. -/
theorem seq (keeps : first.program.Keeps contract ghost (fun outcome later =>
      match outcome with
      | .ok value => (rest value).program.Keeps contract later result
      | .error e => result (.error e) later)) :
    (first >>= rest).program.Keeps contract ghost result := by
  refine bind (keeps.mono fun outcome later kept => ?_)
  cases outcome with
  | ok value => exact kept
  | error e => exact kept

theorem ofExcept {outcome : Except E α}
    (ok : ∀ value, outcome = .ok value → (rest value).program.Keeps contract ghost result)
    (error : ∀ e, result (.error e) ghost) :
    (Program.ofExcept outcome >>= rest).program.Keeps contract ghost result := by
  cases outcome with
  | ok value => exact ok value rfl
  | error e => exact error e

theorem perform {action : A} {rest : Reply action → Fallible A Reply E β}
    (allowed : contract.allows ghost action)
    (kept : ∀ reply later, contract.learns ghost action reply later →
      (rest reply).program.Keeps contract later result) :
    (Program.perform action >>= rest).program.Keeps contract ghost result :=
  ⟨allowed, kept⟩

end Fallible
end Keeps
end Program
