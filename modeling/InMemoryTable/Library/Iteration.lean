import Mathlib.Data.List.Forall2

/-! Iterators as state machines: each call of `next` yields an item or ends the
iteration; `none` stands for a call that does not return. -/
namespace Iteration
variable {S α β : Type} (next : S → Option (Option α × S))

/-- The items of an iteration that ends within `rounds` calls. -/
def collect : Nat → S → Option (List α)
  | 0, _ => none
  | rounds + 1, s =>
    match next s with
    | none => none
    | some (none, _) => some []
    | some (some item, t) => (collect rounds t).map (item :: ·)

/-- The answers of that many calls in a row, also behind the end of the iteration,
and the state that they leave. -/
def answers : Nat → S → Option (List (Option α) × S)
  | 0, s => some ([], s)
  | rounds + 1, s =>
    match next s with
    | none => none
    | some (item, t) => (answers rounds t).map (fun (items, last) => (item :: items, last))

variable {next}

/-- If every state that is to yield `x :: rest` yields an item for `x` and leaves
`rest`, the iteration yields an item for each element of the whole list. -/
theorem collect_of_yields (yields : List β → S → Prop) (rel : β → α → Prop)
    (stops : ∀ {s}, yields [] s → ∃ t, next s = some (none, t))
    (moves : ∀ {x rest s}, yields (x :: rest) s →
      ∃ item t, next s = some (some item, t) ∧ rel x item ∧ yields rest t)
    {xs : List β} {s : S} {rounds : Nat} (start : yields xs s) (enough : xs.length < rounds) :
    ∃ items, collect next rounds s = some items ∧ List.Forall₂ rel xs items := by
  induction xs generalizing s rounds with
  | nil =>
    obtain ⟨rounds, rfl⟩ : ∃ less, rounds = less + 1 := ⟨rounds - 1, by omega⟩
    obtain ⟨t, stopped⟩ := stops start
    exact ⟨[], by simp only [collect, stopped], .nil⟩
  | cons x rest ih =>
    simp only [List.length_cons] at enough
    obtain ⟨rounds, rfl⟩ : ∃ less, rounds = less + 1 := ⟨rounds - 1, by omega⟩
    obtain ⟨item, t, moved, related, remaining⟩ := moves start
    obtain ⟨items, collected, all⟩ := ih remaining (show rest.length < rounds by omega)
    exact ⟨item :: items, by simp only [collect, moved, collected, Option.map_some],
      .cons related all⟩

/-- An iterator that keeps answering `none` at its end answers with an item for each
element and with `none` from then on. -/
theorem answers_of_yields (yields : List β → S → Prop) (rel : β → α → Prop)
    (stops : ∀ {s}, yields [] s → ∃ t, next s = some (none, t) ∧ yields [] t)
    (moves : ∀ {x rest s}, yields (x :: rest) s →
      ∃ item t, next s = some (some item, t) ∧ rel x item ∧ yields rest t)
    {xs : List β} {s : S} (start : yields xs s) :
    ∃ items, List.Forall₂ rel xs items ∧ ∀ rounds, ∃ t, yields (xs.drop rounds) t ∧
      answers next rounds s =
        some ((items.map some ++ List.replicate rounds none).take rounds, t) := by
  induction xs generalizing s with
  | nil =>
    refine ⟨[], .nil, fun rounds => ?_⟩
    induction rounds generalizing s with
    | zero => exact ⟨s, start, rfl⟩
    | succ rounds ih =>
      obtain ⟨t, stopped, start⟩ := stops start
      obtain ⟨last, finished, answered⟩ := ih start
      refine ⟨last, by simpa using finished, ?_⟩
      simp only [answers, stopped, answered, Option.map_some]
      simp [List.replicate_succ]
  | cons x rest ih =>
    obtain ⟨item, t, moved, related, remaining⟩ := moves start
    obtain ⟨items, all, continued⟩ := ih remaining
    refine ⟨item :: items, .cons related all, fun rounds => ?_⟩
    cases rounds with
    | zero => exact ⟨s, start, rfl⟩
    | succ rounds =>
      obtain ⟨last, behind, answered⟩ := continued rounds
      refine ⟨last, behind, ?_⟩
      simp only [answers, moved, answered, Option.map_some]
      simp [List.take_append, List.take_replicate]
      omega

end Iteration
