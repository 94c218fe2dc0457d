import Mathlib.Data.Set.Card
import Mathlib.Logic.Function.Basic

/-! Binary semaphores and the clients that hold them. Each client holds at most
one semaphore; the invariant ties the value of a semaphore to its holder. -/
namespace Ownership
variable {ι : Type} {value : Nat → Nat} {holding : ι → Option Nat} {size x : Nat} {c d : ι}

/-- Every semaphore below `size` is either free with value 1, or has value 0
and exactly one holder; no client holds a number outside the set. -/
structure Exclusive (size : Nat) (value : Nat → Nat) (holding : ι → Option Nat) : Prop where
  bounded : ∀ c x, holding c = some x → x < size
  owned : ∀ x < size, (value x = 1 ∧ ∀ c, holding c ≠ some x) ∨
    (value x = 0 ∧ ∃ c, holding c = some x ∧ ∀ d, holding d = some x → d = c)

namespace Exclusive

theorem initial (free : ∀ x < size, value x = 1) (idle : ∀ c, holding c = none) :
    Exclusive size value holding where
  bounded := by simp [idle]
  owned x hx := .inl ⟨free x hx, by simp [idle]⟩

theorem unique (exclusive : Exclusive size value holding)
    (first : holding c = some x) (second : holding d = some x) : c = d := by
  obtain ⟨_, nobody⟩ | ⟨_, owner, _, only⟩ := exclusive.owned x (exclusive.bounded c x first)
  · exact absurd first (nobody c)
  · exact (only c first).trans (only d second).symm

theorem value_holder (exclusive : Exclusive size value holding) (held : holding c = some x) :
    value x = 0 := by
  obtain ⟨_, nobody⟩ | ⟨taken, _⟩ := exclusive.owned x (exclusive.bounded c x held)
  · exact absurd held (nobody c)
  · exact taken

/-- A positive semaphore has no holder. -/
theorem not_held (exclusive : Exclusive size value holding) (positive : 0 < value x) (c : ι) :
    holding c ≠ some x := by
  intro held
  have := exclusive.value_holder held
  omega

/-- The value of a semaphore is one less the number of its holders. -/
theorem value_add_holders (exclusive : Exclusive size value holding) (valid : x < size) :
    (value x : ENat) + {c | holding c = some x}.encard = 1 := by
  obtain ⟨one, nobody⟩ | ⟨zero, owner, held, only⟩ := exclusive.owned x valid
  · have none : {c | holding c = some x} = ∅ := Set.eq_empty_of_forall_notMem nobody
    rw [one, none, Set.encard_empty, Nat.cast_one, add_zero]
  · have single : {c | holding c = some x} = {owner} :=
      Set.eq_singleton_iff_unique_mem.mpr ⟨held, only⟩
    rw [zero, single, Set.encard_singleton, Nat.cast_zero, zero_add]

/-- A semaphore that is not positive has a holder. -/
theorem exists_holder (exclusive : Exclusive size value holding) (valid : x < size)
    (taken : ¬ 0 < value x) : ∃ c, holding c = some x := by
  obtain ⟨one, _⟩ | ⟨_, owner, held, _⟩ := exclusive.owned x valid
  · omega
  · exact ⟨owner, held⟩

variable [DecidableEq ι]

theorem acquire (exclusive : Exclusive size value holding) (idle : holding c = none)
    (valid : x < size) (positive : 0 < value x) :
    Exclusive size (Function.update value x (value x - 1)) (Function.update holding c (some x)) := by
  have nobody := exclusive.not_held positive
  have one : value x = 1 := by
    obtain ⟨one, _⟩ | ⟨zero, _⟩ := exclusive.owned x valid
    · exact one
    · omega
  constructor
  · intro d y held
    by_cases same : d = c
    · subst same
      rw [Function.update_self] at held
      cases held
      exact valid
    · rw [Function.update_of_ne same] at held
      exact exclusive.bounded d y held
  · intro y hy
    by_cases same : y = x
    · subst same
      refine .inr ⟨by simp [one], c, Function.update_self .., ?_⟩
      intro d held
      by_contra different
      rw [Function.update_of_ne different] at held
      exact nobody d held
    · rw [Function.update_of_ne same]
      have others : ∀ d, Function.update holding c (some x) d = some y ↔ holding d = some y := by
        intro d
        by_cases mine : d = c
        · subst mine
          simp [idle, Ne.symm same]
        · rw [Function.update_of_ne mine]
      simpa only [ne_eq, others] using exclusive.owned y hy

theorem release (exclusive : Exclusive size value holding) (held : holding c = some x) :
    Exclusive size (Function.update value x (value x + 1)) (Function.update holding c none) := by
  have zero := exclusive.value_holder held
  constructor
  · intro d y owner
    by_cases same : d = c
    · subst same
      simp at owner
    · rw [Function.update_of_ne same] at owner
      exact exclusive.bounded d y owner
  · intro y hy
    by_cases same : y = x
    · subst same
      refine .inl ⟨by simp [zero], ?_⟩
      intro d owner
      by_cases mine : d = c
      · subst mine
        simp at owner
      · rw [Function.update_of_ne mine] at owner
        exact mine (exclusive.unique owner held)
    · rw [Function.update_of_ne same]
      have others : ∀ d, Function.update holding c none d = some y ↔ holding d = some y := by
        intro d
        by_cases mine : d = c
        · subst mine
          simp [held, Ne.symm same]
        · rw [Function.update_of_ne mine]
      simpa only [ne_eq, others] using exclusive.owned y hy

end Exclusive
end Ownership
