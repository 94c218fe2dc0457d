import Mathlib.Data.List.Basic

/-! Forward simulation for machines that execute commands one at a time. The
concrete machine is a partial function, the abstract one a relation; `none`
stands for a command that does not return. -/
namespace Simulation
variable {S A C R : Type}

/-- Executing commands in order, collecting their replies. -/
def execute (step : S → C → Option (R × S)) : S → List C → Option (List R × S)
  | s, [] => some ([], s)
  | s, c :: rest =>
    match step s c with
    | none => none
    | some (r, t) =>
      match execute step t rest with
      | none => none
      | some (replies, last) => some (r :: replies, last)

inductive Follows (spec : A → C → R → A → Prop) : A → List C → List R → A → Prop where
  | done (a) : Follows spec a [] [] a
  | next : spec a c r b → Follows spec b rest replies last →
      Follows spec a (c :: rest) (r :: replies) last

variable {step : S → C → Option (R × S)}

/-- If every command returns and matches the abstract machine from related
states, then so does every sequence of commands. -/
theorem simulates (spec : A → C → R → A → Prop) (rel : S → A → Prop)
    (matched : ∀ {s a} (c : C), rel s a →
      ∃ r t b, step s c = some (r, t) ∧ spec a c r b ∧ rel t b)
    {s : S} {a : A} (related : rel s a) (commands : List C) :
    ∃ replies t b, execute step s commands = some (replies, t) ∧
      Follows spec a commands replies b ∧ rel t b := by
  induction commands generalizing s a with
  | nil => exact ⟨[], s, a, rfl, .done a, related⟩
  | cons c rest ih =>
    obtain ⟨r, t, b, stepped, specified, related⟩ := matched c related
    obtain ⟨replies, last, final, executed, follows, related⟩ := ih related
    refine ⟨r :: replies, last, final, ?_, .next specified follows, related⟩
    simp only [execute, stepped, executed]

/-- The replies and the last state of an abstract machine that is a function. -/
def replay (f : A → C → R × A) : A → List C → List R × A
  | a, [] => ([], a)
  | a, c :: rest =>
    let (r, b) := f a c
    let (replies, last) := replay f b rest
    (r :: replies, last)

/-- Simulation of a machine that is a function: the replies are its replies. -/
theorem simulates_replay (f : A → C → R × A) (rel : S → A → Prop)
    (matched : ∀ {s a} (c : C), rel s a →
      ∃ t, step s c = some ((f a c).1, t) ∧ rel t (f a c).2)
    {s : S} {a : A} (related : rel s a) (commands : List C) :
    ∃ t, execute step s commands = some ((replay f a commands).1, t) ∧
      rel t (replay f a commands).2 := by
  induction commands generalizing s a with
  | nil => exact ⟨s, rfl, related⟩
  | cons c rest ih =>
    obtain ⟨t, stepped, related⟩ := matched c related
    obtain ⟨last, executed, related⟩ := ih related
    refine ⟨last, ?_, related⟩
    simp only [execute, stepped, executed]
    rfl

end Simulation
