import InMemoryTable.SlotsRun
import Mathlib.Data.Finset.Max

/-! The iterator over the slots in use, interleaved with calls that change the
store. The scan for the next slot has no bound of its own: it relies on the
counter not exceeding what was found so far and what is still ahead. -/
namespace InMemoryTable
open Transition

structure SlotsIterator where
  current : Nat
  found : Nat
  deriving DecidableEq, Repr

/-- What a call of `next` that returns has done; `examined` are the slots whose
state it read, in order. -/
structure SlotsIterator.Outcome (B : Type) where
  item : Option (List B)
  examined : List Nat
  iterator : SlotsIterator

namespace Slots
variable {B : Type}

def iter : SlotsIterator := { current := 0, found := 0 }

/-- The `while` loop of `next`: the first slot from `current` on that is not
free, after the slots examined. `none` means that `fuel` reads do not suffice. -/
def skipFree (self : Slots B) : Nat → Nat → Option (Nat × List Nat)
  | 0, _ => none
  | fuel + 1, current =>
    if self.isFree current then
      (skipFree self fuel (current + 1)).map (fun (last, examined) => (last, current :: examined))
    else some (current, [current])

/-- `SlotsIterator::next` -/
def next (self : Slots B) (fuel : Nat) (iterator : SlotsIterator) :
    Option (SlotsIterator.Outcome B) :=
  if iterator.found ≥ self.count then some { item := none, examined := [], iterator }
  else
    (self.skipFree fuel iterator.current).map (fun (current, examined) =>
      { item := some (self.get current), examined,
        iterator := { current := current + 1, found := iterator.found + 1 } })

variable {store after : Slots B} {iterator : SlotsIterator} {fuel current last : Nat}

theorem isFree_of_free (unused : store.Free current) : store.isFree current = true := by
  simp [isFree, unused.2]

theorem not_isFree (bound : current < store.header.capacity) :
    store.isFree current = false ↔ store.Occupied current := by
  constructor
  · intro used
    refine (free_or_occupied bound).resolve_left (fun unused => ?_)
    rw [isFree_of_free unused] at used
    contradiction
  · intro used
    simp [isFree, used.2]

theorem skipFree_ok (between : ∀ i, current ≤ i → i < last → store.isFree i = true)
    (stop : store.isFree last = false) (start : current ≤ last) (enough : last < current + fuel) :
    store.skipFree fuel current = some (last, List.range' current (last + 1 - current)) := by
  induction fuel generalizing current with
  | zero => omega
  | succ fuel ih =>
    rcases Nat.eq_or_lt_of_le start with rfl | ahead
    · simp [skipFree, stop]
    · have rest := @ih (current + 1) (fun i low high => between i (by omega) high) (by omega)
        (by omega)
      have length : last + 1 - current = (last + 1 - (current + 1)) + 1 := by omega
      simp only [skipFree, between current (Nat.le_refl _) ahead, if_true, rest, Option.map_some,
        length, List.range'_succ]

theorem skipFree_some {examined : List Nat}
    (skipped : store.skipFree fuel current = some (last, examined)) :
    current ≤ last ∧ store.isFree last = false ∧ last ∈ examined ∧
      ∀ i, current ≤ i → i < last → store.isFree i = true := by
  induction fuel generalizing current examined with
  | zero => cases skipped
  | succ fuel ih =>
    simp only [skipFree] at skipped
    split at skipped
    · rename_i unused
      obtain ⟨⟨stop, rest⟩, walked, same⟩ := Option.map_eq_some_iff.mp skipped
      cases same
      obtain ⟨bound, used, member, between⟩ := ih walked
      refine ⟨by omega, used, List.mem_cons_of_mem _ member, fun i low high => ?_⟩
      rcases Nat.eq_or_lt_of_le low with rfl | behind
      · exact unused
      · exact between i behind high
    · rename_i used
      cases skipped
      exact ⟨Nat.le_refl _, by simpa using used, List.mem_singleton_self _, by omega⟩

/-- A call of `next` returns and stays within the table. -/
def NextWithin (store : Slots B) (iterator : SlotsIterator) : Prop :=
  ∃ fuel outcome, store.next fuel iterator = some outcome ∧
    ∀ i ∈ outcome.examined, i < store.header.capacity

/-- The slots in use that the cursor has not passed. -/
def ahead (store : Slots B) (current : Nat) : Finset Nat :=
  (Finset.range store.header.capacity).filter (fun i => current ≤ i ∧ store.Occupied i)

theorem mem_ahead {i : Nat} : i ∈ store.ahead current ↔ current ≤ i ∧ store.Occupied i := by
  simp only [ahead, Finset.mem_filter, Finset.mem_range]
  exact ⟨And.right, fun member => ⟨member.2.1, member⟩⟩

theorem nextWithin_iff :
    store.NextWithin iterator ↔
      (iterator.found < store.count → (store.ahead iterator.current).Nonempty) := by
  constructor
  · rintro ⟨fuel, outcome, returned, within⟩ remaining
    simp only [next, ge_iff_le, Nat.not_le.mpr remaining, if_false] at returned
    obtain ⟨⟨last, examined⟩, skipped, rfl⟩ := Option.map_eq_some_iff.mp returned
    obtain ⟨start, used, member, _⟩ := skipFree_some skipped
    exact ⟨last, mem_ahead.mpr ⟨start, (not_isFree (within last member)).mp used⟩⟩
  · intro remaining
    by_cases finished : iterator.found ≥ store.count
    · refine ⟨0, { item := none, examined := [], iterator }, ?_, by simp⟩
      simp only [next, finished, if_true]
    · have some := remaining (by omega)
      -- the loop stops at the least occupied slot ahead
      have least := mem_ahead.mp ((store.ahead iterator.current).min'_mem some)
      generalize hmin : (store.ahead iterator.current).min' some = last at least
      have between : ∀ i, iterator.current ≤ i → i < last → store.isFree i = true := by
        intro i low high
        refine isFree_of_free ((free_or_occupied (high.trans least.2.1)).resolve_right ?_)
        intro used
        have := (store.ahead iterator.current).min'_le i (mem_ahead.mpr ⟨low, used⟩)
        omega
      have skipped := @skipFree_ok _ store (last + 1) _ _ between
        ((not_isFree least.2.1).mpr least.2) least.1 (by omega)
      refine ⟨last + 1, _, by rw [next, if_neg finished, skipped]; rfl, ?_⟩
      intro i member
      have := least.2.1
      simp only [List.mem_range'_1] at member
      omega

/-! ### The slots ahead of the cursor -/

theorem WellFormed.count_ahead (wf : store.WellFormed) : (store.ahead 0).card = store.count := by
  have same : store.ahead 0 = store.occupiedSlots.toFinset := by
    ext i
    rw [mem_ahead, List.mem_toFinset, mem_occupiedSlots]
    exact and_iff_right (Nat.zero_le i)
  rw [same, List.toFinset_card_of_nodup store.occupiedSlots_nodup, ← wf.count_eq, count]

theorem Inserted.ahead_eq {index : Nat} {data : List B} (inserted : Inserted store index data after)
    (current : Nat) : after.ahead current =
      if current ≤ index then Insert.insert index (store.ahead current) else store.ahead current := by
  ext i
  rw [mem_ahead, inserted.occupied_iff]
  split
  · rename_i reached
    rw [Finset.mem_insert, mem_ahead]
    constructor
    · rintro ⟨low, used | rfl⟩
      · exact .inr ⟨low, used⟩
      · exact .inl rfl
    · rintro (rfl | ⟨low, used⟩)
      · exact ⟨reached, .inr rfl⟩
      · exact ⟨low, .inl used⟩
  · rename_i passed
    rw [mem_ahead]
    constructor
    · rintro ⟨low, used | rfl⟩
      · exact ⟨low, used⟩
      · exact absurd low passed
    · exact fun ⟨low, used⟩ => ⟨low, .inl used⟩

theorem Inserted.card_ahead {index : Nat} {data : List B}
    (inserted : Inserted store index data after) (current : Nat) :
    (after.ahead current).card =
      (store.ahead current).card + if current ≤ index then 1 else 0 := by
  rw [inserted.ahead_eq]
  split
  · rw [Finset.card_insert_of_notMem]
    exact fun member => (mem_ahead.mp member).2.not_free inserted.wasFree
  · rfl

theorem Updated.ahead_eq {index : Nat} {data : List B} (updated : Updated store index data after)
    (occupied : store.Occupied index) (current : Nat) :
    after.ahead current = store.ahead current := by
  ext i
  rw [mem_ahead, mem_ahead, updated.occupied_iff occupied]

theorem Removed.card_ahead {index : Nat} (removed : Removed store index after) (current : Nat) :
    (store.ahead current).card ≤ (after.ahead current).card + 1 := by
  have same : after.ahead current = (store.ahead current).erase index := by
    ext i
    rw [Finset.mem_erase, mem_ahead, mem_ahead, removed.occupied_iff]
    tauto
  rw [same]
  have := Finset.pred_card_le_card_erase (a := index) (s := store.ahead current)
  omega

/-- A call of `next` that stays within the table takes one slot from those ahead. -/
theorem next_cases {outcome : SlotsIterator.Outcome B} (within : store.NextWithin iterator)
    (returned : store.next fuel iterator = some outcome) :
    (store.count ≤ iterator.found ∧ outcome.iterator = iterator) ∨
    (iterator.found < store.count ∧ outcome.iterator.found = iterator.found + 1 ∧
      (store.ahead iterator.current).card = (store.ahead outcome.iterator.current).card + 1) := by
  rcases Nat.lt_or_ge iterator.found store.count with remaining | finished
  · obtain ⟨i, member⟩ := nextWithin_iff.mp within remaining
    simp only [next, ge_iff_le, Nat.not_le.mpr remaining, if_false] at returned
    obtain ⟨⟨last, examined⟩, skipped, rfl⟩ := Option.map_eq_some_iff.mp returned
    obtain ⟨start, used, _, between⟩ := skipFree_some skipped
    obtain ⟨low, occupied⟩ := mem_ahead.mp member
    have reached : last ≤ i := by
      by_contra beyond
      have free := between i low (by omega)
      rw [(not_isFree occupied.1).mpr occupied] at free
      contradiction
    have stopped : store.Occupied last := (not_isFree (reached.trans_lt occupied.1)).mp used
    have rest : store.ahead (last + 1) = (store.ahead iterator.current).erase last := by
      ext j
      rw [Finset.mem_erase, mem_ahead, mem_ahead]
      constructor
      · rintro ⟨behind, used⟩
        exact ⟨by omega, by omega, used⟩
      · rintro ⟨different, low, used⟩
        refine ⟨?_, used⟩
        by_contra passed
        have free := between j low (by omega)
        rw [(not_isFree used.1).mpr used] at free
        contradiction
    refine .inr ⟨remaining, rfl, ?_⟩
    rw [rest, Finset.card_erase_add_one (mem_ahead.mpr ⟨start, stopped⟩)]
  · refine .inl ⟨finished, ?_⟩
    simp only [next, ge_iff_le, finished, if_true] at returned
    cases returned
    rfl

/-! ### Interleavings of the iterator with calls on the store -/

inductive IterationEvent (B : Type) where
  | call (call : SlotsCall B)
  | next (examined : List Nat)

/-- One call on the store, or one call of `next` that returns. -/
inductive IterationStep : Slots B × SlotsIterator → IterationEvent B → Slots B × SlotsIterator → Prop where
  | call {store after : Slots B} {iterator : SlotsIterator} {call : SlotsCall B} :
      call.Step store after → IterationStep (store, iterator) (.call call) (after, iterator)
  | next {store : Slots B} {iterator : SlotsIterator} {fuel : Nat}
      {outcome : SlotsIterator.Outcome B} : store.next fuel iterator = some outcome →
      IterationStep (store, iterator) (.next outcome.examined) (store, outcome.iterator)

/-- An insertion behind the cursor happens only while there is less to be found
than the slots ahead provide. -/
def NotOvertaken (state : Slots B × SlotsIterator) (event : IterationEvent B) : Prop :=
  ∀ data index after, event = .call (.insert data) → state.1.insert data = (.ok index, after) →
    index < state.2.current →
    state.1.count < state.2.found + (state.1.ahead state.2.current).card

/-- The counter does not promise more than the slots ahead provide. -/
structure InStep (state : Slots B × SlotsIterator) : Prop where
  wellFormed : state.1.WellFormed
  enough : state.1.count ≤ state.2.found + (state.1.ahead state.2.current).card

theorem InStep.within {state : Slots B × SlotsIterator} (inStep : InStep state) :
    state.1.NextWithin state.2 := by
  refine nextWithin_iff.mpr (fun remaining => Finset.card_pos.mp ?_)
  have := inStep.enough
  omega

theorem WellFormed.inStep (wf : store.WellFormed) : InStep (store, iter) where
  wellFormed := wf
  enough := by
    change store.count ≤ 0 + (store.ahead 0).card
    rw [wf.count_ahead]
    omega

theorem InStep.step {state last : Slots B × SlotsIterator} {event : IterationEvent B}
    (inStep : InStep state) (stepped : Guarded IterationStep NotOvertaken state event last) :
    InStep last := by
  obtain ⟨moved, allowed⟩ := stepped
  have enough := inStep.enough
  cases moved with
  | @call store after iterator call moved =>
    have wf : store.WellFormed := inStep.wellFormed
    refine ⟨(wf.step moved).1, ?_⟩
    obtain ⟨permitted, rfl⟩ := moved
    cases call with
    | insert data =>
      simp only [SlotsCall.apply] at enough ⊢
      obtain ⟨_, same⟩ | ⟨_, _, same⟩ | ⟨_, _, index, after, same, inserted⟩ :=
        wf.insert_cases data
      · rwa [same]
      · rwa [same]
      · have room := allowed data index after rfl same
        have grown := inserted.count
        rw [same, inserted.card_ahead]
        simp only [count] at room enough ⊢
        split <;> omega
    | update index data =>
      simp only [SlotsCall.apply] at enough ⊢
      obtain ⟨_, same⟩ | ⟨_, after, same, updated⟩ := wf.update_cases permitted data
      · rwa [same]
      · simpa only [same, updated.ahead_eq permitted, count, updated.header] using enough
    | remove index =>
      have removed := wf.remove_ok permitted
      have shrunk := removed.count
      have card := removed.card_ahead iterator.current
      simp only [SlotsCall.apply, count] at enough ⊢
      omega
  | @next store iterator fuel outcome returned =>
    refine ⟨inStep.wellFormed, ?_⟩
    have within : store.NextWithin iterator := inStep.within
    obtain ⟨_, same⟩ | ⟨_, found, card⟩ := next_cases within returned
    · rwa [same]
    · simp only [found] at enough ⊢
      omega

/-- When the counter promises more than the slots ahead provide, the iterator
gets out of the table. -/
theorem exists_overrun (remaining : iterator.found + (store.ahead iterator.current).card < store.count) :
    ∃ events iterator', Run IterationStep (store, iterator) events (store, iterator') ∧
      ¬ store.NextWithin iterator' := by
  induction card : (store.ahead iterator.current).card generalizing iterator with
  | zero =>
    refine ⟨[], iterator, .refl _, fun within => ?_⟩
    have some := nextWithin_iff.mp within (by omega)
    rw [Finset.card_eq_zero.mp card] at some
    exact Finset.not_nonempty_empty some
  | succ left ih =>
    have within : store.NextWithin iterator :=
      nextWithin_iff.mpr (fun _ => Finset.card_pos.mp (by omega))
    obtain ⟨fuel, outcome, returned, _⟩ := id within
    obtain ⟨finished, _⟩ | ⟨_, found, same⟩ := next_cases within returned
    · omega
    · obtain ⟨events, iterator', run, outside⟩ := @ih outcome.iterator (by omega)
        (by omega)
      exact ⟨_, iterator', .next (.next returned) run, outside⟩

theorem iteration_wellFormed {state last : Slots B × SlotsIterator} {event : IterationEvent B}
    (wf : state.1.WellFormed) (stepped : IterationStep state event last) : last.1.WellFormed := by
  cases stepped with
  | call moved => exact (wf.step moved).1
  | next returned => exact wf

/-- As long as no insertion overtakes the iterator, every call of `next` returns
within the table; wherever one does, calls of `next` lead out of it. -/
theorem iteration_within (wf : store.WellFormed) :
    (∀ events after iterator,
      Run (Guarded IterationStep NotOvertaken) (store, iter) events (after, iterator) →
      after.NextWithin iterator) ∧
    ∀ events middle event last, Run IterationStep (store, iter) events middle →
      IterationStep middle event last → ¬ NotOvertaken middle event →
      ∃ more iterator, Run IterationStep last more (last.1, iterator) ∧
        ¬ last.1.NextWithin iterator := by
  constructor
  · intro events after iterator run
    have inStep : InStep (after, iterator) := run.invariant InStep.step wf.inStep
    exact inStep.within
  · intro events middle event last run stepped overtaken
    have kept := run.invariant (P := fun state => state.1.WellFormed) iteration_wellFormed wf
    simp only [NotOvertaken, not_forall] at overtaken
    obtain ⟨data, index, after, rfl, inserts, passed, enough⟩ := overtaken
    cases stepped with
    | @call store _ iterator _ moved =>
      obtain ⟨_, rfl⟩ := moved
      have wf : store.WellFormed := kept
      obtain ⟨_, same⟩ | ⟨_, _, same⟩ | ⟨_, _, _, _, same, inserted⟩ := wf.insert_cases data
      · cases same.symm.trans inserts
      · cases same.symm.trans inserts
      · cases same.symm.trans inserts
        simp only [SlotsCall.apply, same]
        have grown := inserted.count
        have card := inserted.card_ahead iterator.current
        rw [if_neg (Nat.not_le.mpr passed)] at card
        apply exists_overrun
        simp only [count] at enough ⊢
        omega

def emptyStore : Slots Nat := new (fun _ => ⟨.free, 0, []⟩) 2 1

/-- One slot is found while nothing else happens. -/
theorem iteration_within_sample :
    (emptyStore.insert [7]).2.NextWithin { current := 1, found := 1 } := by
  have first : Guarded IterationStep NotOvertaken (emptyStore, iter) (.call (.insert [7]))
      ((emptyStore.insert [7]).2, iter) := by
    refine ⟨.call ⟨trivial, rfl⟩, ?_⟩
    intro data index after _ _ passed
    exact absurd passed (Nat.not_lt_zero index)
  have second : Guarded IterationStep NotOvertaken ((emptyStore.insert [7]).2, iter) (.next [0])
      ((emptyStore.insert [7]).2, { current := 1, found := 1 }) := by
    have returned : (emptyStore.insert [7]).2.next 1 iter =
        some ⟨some [7], [0], { current := 1, found := 1 }⟩ := rfl
    refine ⟨.next returned, ?_⟩
    intro data index after same
    cases same
  exact (iteration_within (new_wellFormed _ 2 1)).1 _ _ _ (.next first (.next second (.refl _)))

/-- Slot 1 is found first, then slot 0 is filled behind the cursor: the counter
promises a second slot, and the scan runs past the end of the table. -/
theorem iteration_overruns :
    ¬ ∀ (store : Slots Nat) events after iterator, store.WellFormed →
      Run IterationStep (store, iter) events (after, iterator) → after.NextWithin iterator := by
  intro within
  let one := (emptyStore.insert [7]).2
  let two := (one.insert [8]).2
  let hole := two.remove 0
  have found : hole.next 2 iter = some ⟨some [8], [0, 1], { current := 2, found := 1 }⟩ := rfl
  have run : Run IterationStep (emptyStore, iter)
      [.call (.insert [7]), .call (.insert [8]), .call (.remove 0), .next [0, 1],
        .call (.insert [9])] ((hole.insert [9]).2, { current := 2, found := 1 }) :=
    .next (.call ⟨trivial, rfl⟩) (.next (.call ⟨trivial, rfl⟩)
      (.next (.call ⟨by decide, rfl⟩) (.next (.next found) (.next (.call ⟨trivial, rfl⟩) (.refl _)))))
  have inside := nextWithin_iff.mp (within _ _ _ _ (new_wellFormed _ 2 1) run) (by decide)
  exact absurd inside (by decide)

end Slots
end InMemoryTable
