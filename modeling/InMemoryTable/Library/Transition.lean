import Mathlib.Data.List.Basic

/-! Finite runs of labeled transition relations, with the induction rules for
properties of states and of the labels emitted. -/
namespace Transition
variable {S E : Type}

inductive Run (step : S → E → S → Prop) : S → List E → S → Prop where
  | refl (s) : Run step s [] s
  | next : step s e t → Run step t rest u → Run step s (e :: rest) u

/-- The steps of `step` that are taken in a state where `allowed` holds. -/
def Guarded (step : S → E → S → Prop) (allowed : S → E → Prop) (s : S) (e : E) (t : S) : Prop :=
  step s e t ∧ allowed s e

namespace Run
variable {step : S → E → S → Prop} {allowed : S → E → Prop} {s t u : S} {es fs : List E} {e : E}

theorem trans (first : Run step s es t) (second : Run step t fs u) : Run step s (es ++ fs) u := by
  induction first with
  | refl => exact second
  | next head tail ih => exact .next head (ih second)

/-- The moment of one label in a run. -/
theorem split (run : Run step s (es ++ e :: fs) u) :
    ∃ t v, Run step s es t ∧ step t e v ∧ Run step v fs u := by
  induction es generalizing s with
  | nil =>
    cases run with
    | next head tail => exact ⟨s, _, .refl s, head, tail⟩
  | cons first rest ih =>
    cases run with
    | next head tail =>
      obtain ⟨t, v, before, moment, after⟩ := ih tail
      exact ⟨t, v, .next head before, moment, after⟩

theorem invariant {P : S → Prop} (preserves : ∀ {s e t}, P s → step s e t → P t)
    (run : Run step s es t) (initial : P s) : P t := by
  induction run with
  | refl => exact initial
  | next head tail ih => exact ih (preserves initial head)

/-- An invariant that also speaks of the labels emitted so far. -/
theorem history {P : List E → S → Prop}
    (preserves : ∀ {past s e t}, P past s → step s e t → P (past ++ [e]) t)
    (run : Run step s es t) (past : List E) (initial : P past s) : P (past ++ es) t := by
  induction run generalizing past with
  | refl => simpa using initial
  | next head tail ih =>
    simpa only [List.append_assoc, List.singleton_append] using
      ih _ (preserves initial head)

theorem mono {other : S → E → S → Prop} (weaker : ∀ {s e t}, step s e t → other s e t)
    (run : Run step s es t) : Run other s es t := by
  induction run with
  | refl => exact .refl _
  | next head tail ih => exact .next (weaker head) ih

theorem unguarded (run : Run (Guarded step allowed) s es t) : Run step s es t :=
  run.mono And.left

/-- What one step establishes of its own label, every label of a run has,
provided the invariant `P` holds along the run. -/
theorem labels {P : S → Prop} {Q : E → Prop} (preserves : ∀ {s e t}, P s → step s e t → P t)
    (emits : ∀ {s e t}, P s → step s e t → Q e) (run : Run step s es t) (initial : P s) :
    ∀ e ∈ es, Q e := by
  induction run with
  | refl => simp
  | next head tail ih =>
    intro e member
    rcases List.mem_cons.mp member with rfl | member
    · exact emits initial head
    · exact ih (preserves initial head) e member

/-- A weight that every step lowers bounds the length of every run. -/
theorem length_add_weight_le {P : S → Prop} (weight : S → Nat)
    (preserves : ∀ {s e t}, P s → step s e t → P t)
    (lowers : ∀ {s e t}, P s → step s e t → weight t < weight s)
    (run : Run step s es t) (initial : P s) : es.length + weight t ≤ weight s := by
  induction run with
  | refl => simp
  | next head tail ih =>
    have first := lowers initial head
    have rest := ih (preserves initial head)
    simp only [List.length_cons]
    omega

/-- Where neighboring steps can be taken in either order, the order of the labels
of a run does not matter. -/
theorem perm {P : S → Prop} (preserves : ∀ {s e t}, P s → step s e t → P t)
    (swaps : ∀ {s t u e f}, P s → step s e t → step t f u → ∃ v, step s f v ∧ step v e u)
    (permuted : es.Perm fs) (run : Run step s es u) (initial : P s) : Run step s fs u := by
  induction permuted generalizing s with
  | nil => exact run
  | cons e _ ih =>
    cases run with
    | next head tail => exact .next head (ih tail (preserves initial head))
  | swap e f rest =>
    cases run with
    | next first tail =>
      cases tail with
      | next second tail =>
        obtain ⟨v, second, first⟩ := swaps initial first second
        exact .next second (.next first tail)
  | trans _ _ first second => exact second (first run initial) initial

end Run

end Transition
