import InMemoryTable.Library.Interleaving

/-! What the clients of an interleaving hold, read off the trace: what they
have taken more often than given back. -/
namespace Ledger
open Interleaving Transition
variable {S L E X ι : Type} [DecidableEq ι] [DecidableEq X]

/-- How many events of client `c` are of a kind and about `x`. -/
def times (kind : E → Option X) (trace : List (ι × E)) (c : ι) (x : X) : Nat :=
  trace.countP (fun label => label.1 = c ∧ kind label.2 = some x)

def Holds (takes gives : E → Option X) (trace : List (ι × E)) (c : ι) (x : X) : Prop :=
  times gives trace c x < times takes trace c x

/-- What is taken was not held, what is given back was, and the rest stays. -/
structure Balanced (takes gives : E → Option X) (before : X → Prop) (e : E) (after : X → Prop) :
    Prop where
  taken : ∀ x, takes e = some x → gives e ≠ some x ∧ ¬ before x ∧ after x
  given : ∀ x, gives e = some x → takes e ≠ some x ∧ before x ∧ ¬ after x
  kept : ∀ x, takes e ≠ some x → gives e ≠ some x → (after x ↔ before x)

omit [DecidableEq X] in
theorem Balanced.quiet {takes gives : E → Option X} {before after : X → Prop} {e : E}
    (taken : takes e = none) (given : gives e = none) (same : after = before) :
    Balanced takes gives before e after where
  taken := by simp [taken]
  given := by simp [given]
  kept := by simp [same]

theorem times_append (kind : E → Option X) (trace : List (ι × E)) (label : ι × E) (c : ι) (x : X) :
    times kind (trace ++ [label]) c x =
      times kind trace c x + if label.1 = c ∧ kind label.2 = some x then 1 else 0 := by
  simp [times, List.countP_append, List.countP_cons]

section
variable {takes gives : E → Option X} {holding : L → X → Prop} {effect : S → L → E → S → L → Prop}
  {config last : Config ι S L} {trace past : List (ι × E)} {label : ι × E}

/-- The books of every client agree with what its local state says. -/
def Kept (takes gives : E → Option X) (holding : L → X → Prop) (trace : List (ι × E))
    (config : Config ι S L) : Prop :=
  ∀ c x, (holding (config.client c) x ∧ times takes trace c x = times gives trace c x + 1) ∨
    (¬ holding (config.client c) x ∧ times takes trace c x = times gives trace c x)

theorem Kept.step (kept : Kept takes gives holding past config)
    (balanced : ∀ {s l e t m}, effect s l e t m → Balanced takes gives (holding l) e (holding m))
    (stepped : Step effect config label last) : Kept takes gives holding (past ++ [label]) last := by
  obtain ⟨moves⟩ := stepped
  rename_i c e shared own
  have books := balanced moves
  intro d x
  rw [times_append, times_append]
  by_cases same : d = c
  · subst same
    rw [Config.moved_self]
    by_cases taken : takes e = some x
    · obtain ⟨notGiven, before, after⟩ := books.taken x taken
      have even := (kept d x).resolve_left (fun held => before held.1)
      exact .inl ⟨after, by simp [taken, notGiven, even.2]⟩
    · by_cases given : gives e = some x
      · obtain ⟨_, before, after⟩ := books.given x given
        have odd := (kept d x).resolve_right (fun even => even.1 before)
        exact .inr ⟨after, by simp [taken, given, odd.2]⟩
      · simpa [taken, given, books.kept x taken given] using kept d x
  · simpa [Config.moved_other _ _ _ _ same, Ne.symm same] using kept d x

theorem Kept.holds_iff (kept : Kept takes gives holding trace config) (c : ι) (x : X) :
    Holds takes gives trace c x ↔ holding (config.client c) x := by
  unfold Holds
  rcases kept c x with ⟨held, odd⟩ | ⟨free, even⟩
  · exact iff_of_true (by omega) held
  · exact iff_of_false (by omega) free

/-- The books agree along every run that starts with nothing held. -/
theorem Kept.run
    (balanced : ∀ {s l e t m}, effect s l e t m → Balanced takes gives (holding l) e (holding m))
    (run : Run (Step effect) config trace last) (nothing : ∀ c x, ¬ holding (config.client c) x) :
    Kept takes gives holding trace last :=
  run.history (P := Kept takes gives holding) (fun kept stepped => kept.step balanced stepped) []
    (fun c x => .inr ⟨nothing c x, rfl⟩)

end
end Ledger
