import InMemoryTable.RegistryRun
import InMemoryTable.StoreSteps

/-! Iterators over a store that only grows, with every store of an insertion and
every read of an iterator in any order. `insert` counts a slot before it marks it
as occupied; an iterator that reads the slot in between steps over it. -/
namespace InMemoryTable
open Interleaving Transition

variable {B ι : Type}

/-! ### The store between two insertions -/

namespace Slots
variable {store slots : Slots B} {capacity dataSize index i : Nat} {data : List B}

/-- Without removals the slots in use are the first ones, and the free list leads
through the others in order. -/
structure Packed (capacity dataSize : Nat) (store : Slots B) : Prop where
  sized : Sized capacity dataSize store
  free : store.FreeList (List.range' store.count (capacity - store.count))

theorem new_packed (memory : Nat → Slot B) (capacity : Nat) {dataSize : Nat}
    (small : slotMetadataSize + dataSize < usizeModulus) :
    Packed capacity dataSize (new memory capacity dataSize) where
  sized := new_sized memory capacity small
  free := by
    have count : (new memory capacity dataSize).count = 0 := by
      rw [Slots.count, new_header]
      rfl
    rw [count, Nat.sub_zero, ← List.range_eq_range']
    exact new_freeList memory capacity dataSize

namespace Packed

theorem count_le (packed : Packed capacity dataSize store) : store.count ≤ capacity := by
  have := packed.sized.wellFormed.count_le
  rwa [packed.sized.capacity] at this

/-- The list starts at the first slot that is not in use, or ends there. -/
theorem firstFree (packed : Packed capacity dataSize store) :
    store.header.firstFree = store.count := by
  have limit := packed.count_le
  have linked := packed.free.1
  rcases Nat.eq_or_lt_of_le limit with full | room
  · rw [full, Nat.sub_self] at linked
    have stop : store.header.firstFree = store.header.capacity := linked
    rw [stop, packed.sized.capacity, full]
  · obtain ⟨rest, split⟩ : ∃ rest, capacity - store.count = rest + 1 :=
      ⟨capacity - store.count - 1, by omega⟩
    rw [split, List.range'_succ] at linked
    exact linked.1

theorem free_iff (packed : Packed capacity dataSize store) :
    store.Free i ↔ store.count ≤ i ∧ i < capacity := by
  have limit := packed.count_le
  rw [← packed.free.member i, List.mem_range'_1]
  omega

theorem occupied (packed : Packed capacity dataSize store) (used : i < store.count) :
    store.Occupied i := by
  have limit := packed.count_le
  refine (free_or_occupied ?_).resolve_left (fun unused => ?_)
  · rw [packed.sized.capacity]
    omega
  · have := (packed.free_iff.mp unused).1
    omega

theorem insert (packed : Packed capacity dataSize store)
    (inserted : store.insert data = (.ok index, slots)) :
    index = store.count ∧ slots.count = store.count + 1 ∧ Packed capacity dataSize slots ∧
      slots.get index = data ∧ ∀ i ≠ index, slots.slot i = store.slot i := by
  obtain ⟨_, same⟩ | ⟨_, _, same⟩ | ⟨room, fits, _, _, same, filled⟩ :=
    packed.sized.insert_cases data
  · cases same.symm.trans inserted
  · cases same.symm.trans inserted
  · cases same.symm.trans inserted
    have limit : store.header.count < store.header.capacity := by rwa [packed.sized.capacity]
    obtain ⟨rest, split, free⟩ := packed.free.insert limit packed.sized.wellFormed inserted
    obtain ⟨left, length⟩ : ∃ left, capacity - store.count = left + 1 := by
      simp only [count]
      exact ⟨capacity - store.header.count - 1, by omega⟩
    rw [length, List.range'_succ] at split
    obtain ⟨rfl, rfl⟩ := List.cons.inj split
    refine ⟨rfl, filled.count, ⟨filled.sized packed.sized, ?_⟩, filled.stored, filled.others⟩
    have grown : slots.count = store.count + 1 := filled.count
    have same : capacity - (store.count + 1) = left := by omega
    rwa [grown, same]

end Packed
end Slots

/-! ### The store in the middle of an insertion -/

/-- The insertion of the data goes to this slot. -/
def Slots.Begun (settled : Slots B) (index : Nat) (data : List B) : Prop :=
  settled.header.firstFree = index ∧ ¬ settled.header.count ≥ settled.header.capacity ∧
    ¬ data.length > settled.maxData

/-- The settled store with the first `store` of its next insertion. -/
def Slots.unlinked (settled : Slots B) : Slots B :=
  settled.writeFirstFree (settled.slot settled.header.firstFree).size

namespace InsertStage
variable {settled slots after : Slots B} {stage next : InsertStage B} {event : StoreEvent B}

/-- The stores that an insertion into the settled store has made so far. -/
def Partial (settled slots : Slots B) : InsertStage B → Prop
  | outside | entered _ | leaving => slots = settled
  | addCount index data => settled.Begun index data ∧ slots = settled.unlinked
  | writeState index data => settled.Begun index data ∧ slots = settled.unlinked.addCount
  | writeSize index data => settled.Begun index data ∧
      slots = settled.unlinked.addCount.writeState index .occupied
  | copyBytes index data => settled.Begun index data ∧
      slots = (settled.unlinked.addCount.writeState index .occupied).writeSize index data.length

/-- A store continues the insertion, or completes it. -/
theorem Partial.advance (part : stage.Partial settled slots)
    (moves : stage.advance slots = some (event, after, next)) :
    stage.holds = true ∧ next.holds = true ∧
      ((next.Partial settled after ∧ ∀ data, event ≠ .inserted data) ∨
        ∃ index data, event = .inserted data ∧ settled.insert data = (.ok index, after) ∧
          next = .leaving) := by
  cases stage with
  | outside => cases moves
  | leaving => cases moves
  | entered data =>
    have same : slots = settled := part
    subst same
    simp only [InsertStage.advance] at moves
    split at moves
    · cases moves
      exact ⟨rfl, rfl, .inl ⟨rfl, by rintro _ ⟨⟩⟩⟩
    · rename_i room
      split at moves
      · cases moves
        exact ⟨rfl, rfl, .inl ⟨rfl, by rintro _ ⟨⟩⟩⟩
      · rename_i fits
        cases moves
        exact ⟨rfl, rfl, .inl ⟨⟨⟨rfl, room, fits⟩, rfl⟩, by rintro _ ⟨⟩⟩⟩
  | addCount index data =>
    obtain ⟨begun, rfl⟩ := part
    cases moves
    exact ⟨rfl, rfl, .inl ⟨⟨begun, rfl⟩, by rintro _ ⟨⟩⟩⟩
  | writeState index data =>
    obtain ⟨begun, rfl⟩ := part
    cases moves
    exact ⟨rfl, rfl, .inl ⟨⟨begun, rfl⟩, by rintro _ ⟨⟩⟩⟩
  | writeSize index data =>
    obtain ⟨begun, rfl⟩ := part
    cases moves
    exact ⟨rfl, rfl, .inl ⟨⟨begun, rfl⟩, by rintro _ ⟨⟩⟩⟩
  | copyBytes index data =>
    obtain ⟨⟨rfl, room, fits⟩, rfl⟩ := part
    cases moves
    refine ⟨rfl, rfl, .inr ⟨settled.header.firstFree, data, rfl, ?_, rfl⟩⟩
    simp only [Slots.insert, room, fits, if_false, ← Slots.setRecordData_steps]
    rfl

/-- What others see of the store: one slot may be counted, and its state, its size
and its bytes are stored one after the other. -/
structure Glimpse (settled slots : Slots B) (stage : InsertStage B) : Prop where
  others : ∀ i ≠ settled.header.firstFree, slots.slot i = settled.slot i
  count : slots.count = settled.count ∨ slots.count = settled.count + 1 ∧
    settled.count < settled.header.capacity ∧
    (stage.counted = some settled.header.firstFree ∨
      stage.incomplete = some settled.header.firstFree)
  state : (slots.slot settled.header.firstFree).state =
      (settled.slot settled.header.firstFree).state ∧ stage.incomplete = none ∨
    (slots.slot settled.header.firstFree).state = .occupied ∧
      stage.incomplete = some settled.header.firstFree
  started : ∀ i, stage.counted = some i → i = settled.header.firstFree ∧
    settled.count < settled.header.capacity ∧ slots.slot i = settled.slot i

theorem Partial.glimpse (part : stage.Partial settled slots) : Glimpse settled slots stage := by
  have unchanged : ∀ stage : InsertStage B, stage.counted = none → stage.incomplete = none →
      Glimpse settled settled stage := by
    intro stage nothing complete
    exact ⟨fun _ _ => rfl, .inl rfl, .inl ⟨rfl, complete⟩, by simp [nothing]⟩
  cases stage with
  | outside | entered data | leaving =>
    have same : slots = settled := part
    subst same
    exact unchanged _ rfl rfl
  | addCount index data =>
    obtain ⟨begun, rfl⟩ := part
    exact ⟨fun _ _ => rfl, .inl rfl, .inl ⟨rfl, rfl⟩, by rintro _ ⟨⟩⟩
  | writeState index data =>
    obtain ⟨⟨rfl, room, fits⟩, rfl⟩ := part
    refine ⟨fun _ _ => rfl, .inr ⟨rfl, Nat.not_le.mp room, .inl rfl⟩, .inl ⟨rfl, rfl⟩, ?_⟩
    intro i counted
    cases counted
    exact ⟨rfl, Nat.not_le.mp room, rfl⟩
  | writeSize index data =>
    obtain ⟨⟨rfl, room, fits⟩, rfl⟩ := part
    refine ⟨fun i different => Function.update_of_ne different ..,
      .inr ⟨rfl, Nat.not_le.mp room, .inr rfl⟩, .inr ⟨?_, rfl⟩, by rintro _ ⟨⟩⟩
    simp [Slots.writeState]
  | copyBytes index data =>
    obtain ⟨⟨rfl, room, fits⟩, rfl⟩ := part
    refine ⟨fun i different => ?_, .inr ⟨rfl, Nat.not_le.mp room, .inr rfl⟩, .inr ⟨?_, rfl⟩,
      by rintro _ ⟨⟩⟩
    · rw [Slots.writeSize_other different]
      exact Function.update_of_ne different ..
    · simp [Slots.writeSize, Slots.writeState]

end InsertStage

/-! ### Members -/

namespace Member

/-- No member reads what an insertion has begun to publish: the state of the slot that
is counted but still free, or the size and bytes of the slot that is occupied but
incomplete. -/
def Published (config : Config ι (StoreShared B) (Member B)) : ι × StoreEvent B → Prop
  | (_, .examined i) => ∀ d stage, config.client d = .inserting stage → stage.counted ≠ some i
  | (_, .yielded i _) => ∀ d stage, config.client d = .inserting stage → stage.incomplete ≠ some i
  | _ => True

/-- The members of a store that has just been created. -/
structure Fresh (memory : Nat → Slot B) (capacity dataSize : Nat)
    (config : Config ι (StoreShared B) (Member B)) : Prop where
  shared : config.shared = ⟨Slots.new memory capacity dataSize, 1⟩
  ready : ∀ c, config.client c = .inserting .outside ∨
    config.client c = .iterating (.resting Slots.iter)

/-- What an iterator has yielded. -/
def items [DecidableEq ι] (c : ι) (trace : List (ι × StoreEvent B)) : List (List B) :=
  trace.filterMap (fun label =>
    match label.2 with
    | .yielded _ data => if label.1 = c then some data else none
    | _ => none)

/-- What has been inserted. -/
def stored (trace : List (ι × StoreEvent B)) : List (List B) :=
  trace.filterMap (fun label =>
    match label.2 with
    | .inserted data => some data
    | _ => none)

end Member

open Member

/-- At most one member is between the semaphore and its release; apart from its
stores the slots are settled. -/
structure Growing (capacity dataSize : Nat) (config : Config ι (StoreShared B) (Member B))
    (settled : Slots B) : Prop where
  packed : settled.Packed capacity dataSize
  inserter : (config.shared = ⟨settled, 1⟩ ∧
      ∀ d stage, config.client d = .inserting stage → stage = .outside) ∨
    (config.shared.semaphore = 0 ∧ ∃ c stage, config.client c = .inserting stage ∧
      stage.holds = true ∧ stage.Partial settled config.shared.slots ∧
      ∀ d other, d ≠ c → config.client d = .inserting other → other = .outside)

namespace Growing
variable {capacity dataSize : Nat} {config last : Config ι (StoreShared B) (Member B)}
  {settled : Slots B}

theorem of_fresh {memory : Nat → Slot B} (fresh : Fresh memory capacity dataSize config)
    (small : Slots.slotMetadataSize + dataSize < usizeModulus) :
    Growing capacity dataSize config (Slots.new memory capacity dataSize) where
  packed := Slots.new_packed memory capacity small
  inserter := by
    refine .inl ⟨fresh.shared, fun d stage inserting => ?_⟩
    obtain outside | iterating := fresh.ready d
    · cases outside.symm.trans inserting
      rfl
    · cases iterating.symm.trans inserting

/-- One insertion at most is under way, and it is that of a member. -/
theorem part (growing : Growing capacity dataSize config settled) :
    ∃ stage : InsertStage B, stage.Partial settled config.shared.slots ∧
      (stage = .outside ∨ ∃ d, config.client d = .inserting stage) ∧
      ∀ d other, config.client d = .inserting other → other.counted = none ∨ other = stage := by
  obtain ⟨same, outside⟩ | ⟨_, c, stage, inserting, _, part, others⟩ := growing.inserter
  · refine ⟨.outside, congrArg StoreShared.slots same, .inl rfl, fun d other inserting => ?_⟩
    exact .inr (outside d other inserting)
  · refine ⟨stage, part, .inr ⟨c, inserting⟩, fun d other inserting' => ?_⟩
    by_cases mine : d = c
    · subst mine
      cases inserting.symm.trans inserting'
      exact .inr rfl
    · rw [others d other mine inserting']
      exact .inl rfl

variable [DecidableEq ι] {c : ι} {event : StoreEvent B} {shared : StoreShared B} {moved : Member B}

/-- A member that reads leaves the store as it is. -/
theorem of_iterating (growing : Growing capacity dataSize config settled) {stage next : NextStage}
    (iterating : config.client c = .iterating stage) :
    Growing capacity dataSize (config.moved c config.shared (.iterating next)) settled where
  packed := growing.packed
  inserter := by
    have stays : ∀ d other, (config.moved c config.shared (.iterating next)).client d =
        .inserting other ↔ config.client d = .inserting other := by
      intro d other
      by_cases mine : d = c
      · subst mine
        rw [Config.moved_self, iterating]
        exact iff_of_false nofun nofun
      · rw [Config.moved_other _ _ _ _ mine]
    simpa only [stays, Config.moved_shared] using growing.inserter

/-- What a step does to the settled store: nothing, or it completes an insertion. -/
theorem step (growing : Growing capacity dataSize config settled)
    (moves : Moves config.shared (config.client c) event shared moved) :
    (Growing capacity dataSize (config.moved c shared moved) settled ∧
      ∀ data, event ≠ .inserted data) ∨
    ∃ index data after, event = .inserted data ∧ settled.insert data = (.ok index, after) ∧
      Growing capacity dataSize (config.moved c shared moved) after := by
  generalize own : config.client c = member at moves
  cases moves with
  | read stage => exact .inl ⟨growing.of_iterating own, by cases stage <;> grind [NextStage.advance]⟩
  | locked data positive =>
    obtain ⟨same, outside⟩ | ⟨taken, _⟩ := growing.inserter
    · refine .inl ⟨⟨growing.packed, .inr ⟨by simp [same], c, .entered data, ?_, rfl, ?_, ?_⟩⟩,
        by rintro _ ⟨⟩⟩
      · rw [Config.moved_self]
      · exact congrArg StoreShared.slots same
      · intro d other different inserting
        rw [Config.moved_other _ _ _ _ different] at inserting
        exact outside d other inserting
    · omega
  | @stored stage next event slots advanced =>
    obtain ⟨same, outside⟩ | ⟨taken, holder, held, inserting, holds, part, others⟩ :=
      growing.inserter
    · rw [outside c stage own] at advanced
      cases advanced
    · obtain rfl : c = holder := by
        by_contra different
        rw [others c stage different own] at advanced
        cases advanced
      cases inserting.symm.trans own
      obtain ⟨_, holds', outcome⟩ := part.advance advanced
      have others' : ∀ d other, d ≠ c →
          (config.moved c { config.shared with slots } (.inserting next)).client d =
            .inserting other → other = .outside := by
        intro d other different inserting
        rw [Config.moved_other _ _ _ _ different] at inserting
        exact others d other different inserting
      obtain ⟨part', quiet⟩ | ⟨index, data, rfl, inserted, rfl⟩ := outcome
      · exact .inl ⟨⟨growing.packed, .inr ⟨taken, c, next, Config.moved_self .., holds', part',
          others'⟩⟩, quiet⟩
      · refine .inr ⟨index, data, slots, rfl, inserted, (growing.packed.insert inserted).2.2.1, ?_⟩
        exact .inr ⟨taken, c, .leaving, Config.moved_self .., rfl, rfl, others'⟩
  | unlocked =>
    obtain ⟨_, outside⟩ | ⟨taken, holder, held, inserting, holds, part, others⟩ := growing.inserter
    · cases outside c .leaving own
    · obtain rfl : c = holder := by
        by_contra different
        cases others c .leaving different own
      cases inserting.symm.trans own
      have same : config.shared.slots = settled := part
      refine .inl ⟨⟨growing.packed, .inl ⟨?_, fun d other inserting => ?_⟩⟩, by rintro _ ⟨⟩⟩
      · simp [taken, same]
      · by_cases mine : d = c
        · subst mine
          rw [Config.moved_self] at inserting
          cases inserting
          rfl
        · rw [Config.moved_other _ _ _ _ mine] at inserting
          exact others d other mine inserting

/-- The store keeps growing, however iterators read. -/
theorem run (growing : Growing capacity dataSize config settled) {trace : List (ι × StoreEvent B)}
    (run : Run (Step Moves) config trace last) :
    ∃ settled', Growing capacity dataSize last settled' := by
  refine run.invariant (P := fun config => ∃ settled, Growing capacity dataSize config settled) ?_
    ⟨settled, growing⟩
  rintro config _ _ ⟨settled, growing⟩ ⟨moves⟩
  obtain ⟨growing, _⟩ | ⟨_, _, after, _, _, growing⟩ := growing.step moves
  · exact ⟨settled, growing⟩
  · exact ⟨after, growing⟩

end Growing

/-! ### Iterators -/

namespace NextStage
variable {settled settled' slots after : Slots B} {capacity dataSize : Nat}

/-- How many slots an iterator has yielded. -/
def taken : NextStage → Nat
  | resting iterator | scanning iterator => iterator.found
  | reading iterator => iterator.current

/-- The cursor stands behind the slots that were found, all of them complete. -/
def InOrder (settled slots : Slots B) : NextStage → Prop
  | resting iterator => iterator.current = iterator.found ∧ iterator.found ≤ settled.count
  | scanning iterator => iterator.current = iterator.found ∧ iterator.found ≤ settled.count ∧
      iterator.found < slots.count
  | reading iterator => iterator.found = iterator.current + 1 ∧ iterator.current ≤ settled.count ∧
      iterator.current < slots.count ∧ (slots.slot iterator.current).state = .occupied

theorem InOrder.taken_le {stage : NextStage} (inOrder : stage.InOrder settled slots) :
    stage.taken ≤ settled.count := by
  cases stage with
  | resting iterator => exact inOrder.2
  | scanning iterator => exact inOrder.2.1
  | reading iterator => exact inOrder.2.1

theorem InOrder.mono {stage : NextStage} (inOrder : stage.InOrder settled slots)
    (settles : settled.count ≤ settled'.count) (count : slots.count ≤ after.count)
    (used : ∀ i, (slots.slot i).state = .occupied → (after.slot i).state = .occupied) :
    stage.InOrder settled' after := by
  cases stage with
  | resting iterator => exact ⟨inOrder.1, inOrder.2.trans settles⟩
  | scanning iterator =>
    exact ⟨inOrder.1, inOrder.2.1.trans settles, inOrder.2.2.trans_le count⟩
  | reading iterator =>
    obtain ⟨found, bound, counted, occupied⟩ := inOrder
    exact ⟨found, bound.trans settles, counted.trans_le count, used _ occupied⟩

end NextStage

namespace InsertStage
variable {settled slots after : Slots B} {capacity dataSize : Nat} {stage next : InsertStage B}
  {event : StoreEvent B}

/-- A slot that counts is occupied, unless it is just being counted. -/
theorem Glimpse.occupied (glimpse : Glimpse settled slots stage)
    (packed : settled.Packed capacity dataSize) {i : Nat} (bound : i ≤ settled.count)
    (counted : i < slots.count) (published : stage.counted ≠ some i) :
    (slots.slot i).state = .occupied := by
  have first := packed.firstFree
  rcases Nat.lt_or_eq_of_le bound with below | rfl
  · rw [glimpse.others i (by omega)]
    exact (packed.occupied below).2
  · obtain same | ⟨_, _, half | rest⟩ := glimpse.count
    · omega
    · rw [first] at half
      exact absurd half published
    · obtain ⟨_, nothing⟩ | ⟨occupied, _⟩ := glimpse.state
      · rw [nothing] at rest
        cases rest
      · rwa [first] at occupied

/-- A slot that is occupied is complete, unless it is just being filled. -/
theorem Glimpse.complete (glimpse : Glimpse settled slots stage)
    (packed : settled.Packed capacity dataSize) {i : Nat} (bound : i ≤ settled.count)
    (counted : i < slots.count) (occupied : (slots.slot i).state = .occupied)
    (published : stage.incomplete ≠ some i) : i < settled.count := by
  have first := packed.firstFree
  refine Nat.lt_of_le_of_ne bound ?_
  rintro rfl
  rw [← first] at occupied published
  obtain ⟨same, _⟩ | ⟨_, incomplete⟩ := glimpse.state
  · obtain low | ⟨_, room, _⟩ := glimpse.count
    · omega
    · rw [packed.sized.capacity] at room
      have unused := packed.free_iff.mpr ⟨Nat.le_refl _, room⟩
      rw [same, first, unused.2] at occupied
      cases occupied
  · exact published incomplete

theorem Glimpse.get_eq (glimpse : Glimpse settled slots stage)
    (packed : settled.Packed capacity dataSize) {i : Nat} (bound : i < settled.count) :
    slots.get i = settled.get i := by
  have first := packed.firstFree
  exact Slots.get_congr (glimpse.others i (by omega))

/-- A store takes no slot away. -/
theorem advance_mono (moves : stage.advance slots = some (event, after, next)) :
    slots.count ≤ after.count ∧
      ∀ i, (slots.slot i).state = .occupied → (after.slot i).state = .occupied := by
  cases stage with
  | outside => cases moves
  | leaving => cases moves
  | entered data =>
    simp only [advance] at moves
    split at moves
    · cases moves
      exact ⟨Nat.le_refl _, fun _ used => used⟩
    · split at moves <;> cases moves
      · exact ⟨Nat.le_refl _, fun _ used => used⟩
      · exact ⟨Nat.le_refl _, fun _ used => used⟩
  | addCount index data =>
    cases moves
    exact ⟨Nat.le_succ _, fun _ used => used⟩
  | writeState index data =>
    cases moves
    refine ⟨Nat.le_refl _, fun i used => ?_⟩
    by_cases same : i = index
    · subst same
      simp [Slots.writeState]
    · simpa [Slots.writeState, same] using used
  | writeSize index data =>
    cases moves
    refine ⟨Nat.le_refl _, fun i used => ?_⟩
    by_cases same : i = index
    · subst same
      simpa [Slots.writeSize] using used
    · simpa [Slots.writeSize, same] using used
  | copyBytes index data =>
    cases moves
    refine ⟨Nat.le_refl _, fun i used => ?_⟩
    by_cases same : i = index
    · subst same
      simpa [Slots.copyBytes] using used
    · simpa [Slots.copyBytes, same] using used

end InsertStage

namespace NextStage
open InsertStage
variable {settled slots : Slots B} {capacity dataSize : Nat} {stage : InsertStage B}

/-- The outcome of one read of an iterator that nothing half published crosses. -/
inductive InStep (settled slots : Slots B) (capacity : Nat) :
    NextStage → StoreEvent B → NextStage → Prop where
  | finished {iterator : SlotsIterator} : iterator.found = settled.count →
      InStep settled slots capacity (.resting iterator) .finished (.resting iterator)
  | remaining {iterator : SlotsIterator} : (scanning iterator).InOrder settled slots →
      InStep settled slots capacity (.resting iterator) .remaining (.scanning iterator)
  | examined {iterator : SlotsIterator} {next : NextStage} :
      iterator.current < capacity → next.InOrder settled slots → next.taken = iterator.found →
      InStep settled slots capacity (.scanning iterator) (.examined iterator.current) next
  | yielded {iterator : SlotsIterator} : iterator.current < settled.count →
      (resting { iterator with current := iterator.current + 1 }).InOrder settled slots →
      iterator.found = iterator.current + 1 →
      InStep settled slots capacity (.reading iterator)
        (.yielded iterator.current (settled.get iterator.current))
        (.resting { iterator with current := iterator.current + 1 })

theorem InOrder.inStep {next : NextStage} (inOrder : next.InOrder settled slots)
    (packed : settled.Packed capacity dataSize) (glimpse : Glimpse settled slots stage)
    (examined : ∀ i, (next.advance slots).1 = .examined i → stage.counted ≠ some i)
    (yielded : ∀ i data, (next.advance slots).1 = .yielded i data → stage.incomplete ≠ some i) :
    InStep settled slots capacity next (next.advance slots).1 (next.advance slots).2 := by
  have limit := packed.count_le
  cases next with
  | resting iterator =>
    obtain ⟨current, found⟩ := inOrder
    simp only [advance]
    split
    · rename_i finished
      refine .finished ?_
      obtain same | ⟨same, _⟩ := glimpse.count <;> omega
    · rename_i remaining
      exact .remaining ⟨current, found, Nat.not_le.mp remaining⟩
  | scanning iterator =>
    obtain ⟨current, found, counted⟩ := inOrder
    have published : stage.counted ≠ some iterator.current := by
      refine examined _ ?_
      simp only [advance]
      split <;> rfl
    have occupied := glimpse.occupied packed (i := iterator.current) (by omega) (by omega) published
    have used : slots.isFree iterator.current = false := by simp [Slots.isFree, occupied]
    have inside : iterator.current < capacity := by
      obtain same | ⟨same, room, _⟩ := glimpse.count
      · omega
      · rw [packed.sized.capacity] at room
        omega
    simp only [advance, used]
    exact .examined inside ⟨by simp [current], by simp only; omega, by simp only; omega, occupied⟩ current
  | reading iterator =>
    obtain ⟨found, bound, counted, occupied⟩ := inOrder
    have complete := glimpse.complete packed bound counted occupied (yielded _ _ rfl)
    simp only [advance, glimpse.get_eq packed complete]
    exact .yielded complete ⟨found.symm, by simp only; omega⟩ found

end NextStage

/-! ### Whole runs -/

namespace Member

/-- How many slots a member has yielded. -/
def taken : Member B → Nat
  | inserting _ => 0
  | iterating stage => stage.taken

variable [DecidableEq ι] {past : List (ι × StoreEvent B)} {c d : ι} {event : StoreEvent B}

theorem items_quiet (quiet : ∀ i data, event ≠ .yielded i data) :
    items c (past ++ [(d, event)]) = items c past := by
  cases event with
  | yielded i data => exact absurd rfl (quiet i data)
  | _ => simp [items]

theorem items_yielded (i : Nat) (data : List B) : items c (past ++ [(d, .yielded i data)]) =
    items c past ++ if d = c then [data] else [] := by
  by_cases same : d = c <;> simp [items, same]

omit [DecidableEq ι] in
theorem stored_append : stored (past ++ [(d, event)]) =
    stored past ++ match event with | .inserted data => [data] | _ => [] := by
  cases event <;> simp [stored]

/-- A member that inserts neither reads a slot nor takes one away. -/
theorem Moves.inserts {shared after : StoreShared B} {stage : InsertStage B} {moved : Member B}
    (moves : Moves shared (.inserting stage) event after moved) :
    (∃ next, moved = .inserting next) ∧ (∀ i, event ≠ .examined i) ∧
      (∀ i data, event ≠ .yielded i data) ∧ event ≠ .finished ∧
      shared.slots.count ≤ after.slots.count ∧
      ∀ i, (shared.slots.slot i).state = .occupied → (after.slots.slot i).state = .occupied := by
  cases moves with
  | locked data positive => exact ⟨⟨_, rfl⟩, nofun, nofun, nofun, Nat.le_refl _, fun _ used => used⟩
  | unlocked => exact ⟨⟨_, rfl⟩, nofun, nofun, nofun, Nat.le_refl _, fun _ used => used⟩
  | @stored stage next event slots advanced =>
    refine ⟨⟨next, rfl⟩, ?_, ?_, ?_, InsertStage.advance_mono advanced⟩
    all_goals
      cases stage <;> grind [InsertStage.advance]

end Member

/-- Every iterator has yielded the first slots in order, each with its record. -/
structure Iterating (capacity dataSize : Nat) (past : List (ι × StoreEvent B))
    (config : Config ι (StoreShared B) (Member B)) (settled : Slots B) [DecidableEq ι] : Prop where
  growing : Growing capacity dataSize config settled
  inOrder : ∀ c stage, config.client c = .iterating stage →
    stage.InOrder settled config.shared.slots
  items : ∀ c, Member.items c past = (List.range (config.client c).taken).map settled.get
  stored : Member.stored past = (List.range settled.count).map settled.get
  examined : ∀ c i, (c, .examined i) ∈ past → i < capacity

namespace Iterating
variable [DecidableEq ι] {capacity dataSize : Nat} {past : List (ι × StoreEvent B)}
  {config last : Config ι (StoreShared B) (Member B)} {settled : Slots B} {c : ι}
  {event : StoreEvent B}

theorem of_fresh {memory : Nat → Slot B} (fresh : Fresh memory capacity dataSize config)
    (small : Slots.slotMetadataSize + dataSize < usizeModulus) :
    Iterating capacity dataSize [] config (Slots.new memory capacity dataSize) where
  growing := .of_fresh fresh small
  inOrder c stage iterating := by
    obtain outside | resting := fresh.ready c
    · cases outside.symm.trans iterating
    · cases resting.symm.trans iterating
      exact ⟨rfl, Nat.zero_le _⟩
  items c := by
    obtain outside | resting := fresh.ready c
    · rw [outside]
      rfl
    · rw [resting]
      rfl
  stored := by
    rw [Slots.count, Slots.new_header]
    rfl
  examined := by simp

theorem taken_le (iterating : Iterating capacity dataSize past config settled) (c : ι) :
    (config.client c).taken ≤ settled.count := by
  cases own : config.client c with
  | inserting stage => exact Nat.zero_le _
  | iterating stage => exact (iterating.inOrder c stage own).taken_le

/-- What a read of an iterator finds. -/
theorem inStep (iterating : Iterating capacity dataSize past config settled) {stage : NextStage}
    (own : config.client c = .iterating stage)
    (published : Published config (c, (stage.advance config.shared.slots).1)) :
    stage.InStep settled config.shared.slots capacity (stage.advance config.shared.slots).1
      (stage.advance config.shared.slots).2 := by
  obtain ⟨insertion, part, member, _⟩ := iterating.growing.part
  refine (iterating.inOrder c stage own).inStep iterating.growing.packed part.glimpse ?_ ?_
  · intro i reads
    rw [reads] at published
    obtain rfl | ⟨d, inserting⟩ := member
    · exact nofun
    · exact published d insertion inserting
  · intro i data reads
    rw [reads] at published
    obtain rfl | ⟨d, inserting⟩ := member
    · exact nofun
    · exact published d insertion inserting

theorem read (iterating : Iterating capacity dataSize past config settled) {stage : NextStage}
    (own : config.client c = .iterating stage)
    (published : Published config (c, (stage.advance config.shared.slots).1)) :
    Iterating capacity dataSize (past ++ [(c, (stage.advance config.shared.slots).1)])
      (config.moved c config.shared (.iterating (stage.advance config.shared.slots).2)) settled := by
  have inStep := iterating.inStep own published
  generalize (stage.advance config.shared.slots).1 = event at inStep
  generalize (stage.advance config.shared.slots).2 = next at inStep
  have mine : config.client c = .iterating stage := own
  have before := iterating.inOrder c stage own
  have items := iterating.items c
  rw [own] at items
  refine ⟨iterating.growing.of_iterating own, ?_, ?_, ?_, ?_⟩
  · refine Config.moved_forall (P := fun _ (member : Member B) => ∀ stage,
      member = .iterating stage → stage.InOrder settled config.shared.slots) _ _ _ _ ?_
      (fun d _ => iterating.inOrder d)
    intro stage' same
    cases same
    cases inStep with
    | finished all => exact before
    | remaining inOrder => exact inOrder
    | examined inside inOrder _ => exact inOrder
    | yielded complete inOrder _ => exact inOrder
  · intro d
    by_cases moving : d = c
    · subst moving
      rw [Config.moved_self]
      cases inStep with
      | finished all =>
        refine (items_quiet ?_).trans items
        exact nofun
      | remaining inOrder =>
        refine (items_quiet ?_).trans items
        exact nofun
      | examined inside inOrder same =>
        rw [taken, same]
        refine (items_quiet ?_).trans items
        exact nofun
      | @yielded iterator complete inOrder found =>
        rw [items_yielded, items, if_pos rfl]
        simp only [taken, NextStage.taken, found, List.range_succ, List.map_append, List.map_cons,
          List.map_nil]
    · rw [Config.moved_other _ _ _ _ moving, ← iterating.items d]
      cases inStep with
      | yielded complete inOrder found =>
        rw [items_yielded, if_neg (Ne.symm moving), List.append_nil]
      | _ => exact items_quiet nofun
  · rw [stored_append, ← iterating.stored]
    cases inStep <;> exact List.append_nil _
  · intro d i member
    rcases List.mem_append.mp member with earlier | now
    · exact iterating.examined d i earlier
    · cases List.mem_singleton.mp now
      cases inStep with
      | examined inside inOrder same => exact inside

theorem step (iterating : Iterating capacity dataSize past config settled)
    (stepped : Guarded (Step Moves) Published config (c, event) last) :
    ∃ settled', Iterating capacity dataSize (past ++ [(c, event)]) last settled' := by
  obtain ⟨⟨moves⟩, published⟩ := stepped
  cases own : config.client c with
  | iterating stage =>
    rw [own] at moves
    cases moves
    exact ⟨settled, iterating.read own published⟩
  | inserting stage =>
    have grown := iterating.growing.step moves
    rw [own] at moves
    obtain ⟨⟨next, rfl⟩, unread, quiet, _, count, used⟩ := moves.inserts
    have examined : ∀ d i, (d, .examined i) ∈ past ++ [(c, event)] → i < capacity := by
      intro d i member
      rcases List.mem_append.mp member with earlier | now
      · exact iterating.examined d i earlier
      · cases List.mem_singleton.mp now
        exact absurd rfl (unread i)
    -- who inserts has yielded nothing, and the others stay where they are
    have taken : ∀ {shared : StoreShared B} d,
        ((config.moved c shared (.inserting next)).client d).taken = (config.client d).taken := by
      intro shared d
      by_cases moving : d = c
      · subst moving
        rw [Config.moved_self, own]
        rfl
      · rw [Config.moved_other _ _ _ _ moving]
    have others : ∀ {shared : StoreShared B} d (stage : NextStage),
        (config.moved c shared (.inserting next)).client d = .iterating stage →
        config.client d = .iterating stage := by
      intro shared d stage same
      by_cases moving : d = c
      · subst moving
        rw [Config.moved_self] at same
        cases same
      · rwa [Config.moved_other _ _ _ _ moving] at same
    obtain ⟨growing, none⟩ | ⟨index, data, after, rfl, inserted, growing⟩ := grown
    · refine ⟨settled, growing, fun d stage same => ?_, fun d => ?_, ?_, examined⟩
      · exact (iterating.inOrder d stage (others d stage same)).mono (Nat.le_refl _) count used
      · rw [taken, items_quiet quiet, iterating.items d]
      · rw [stored_append, iterating.stored]
        cases event with
        | inserted data => exact absurd rfl (none data)
        | _ => exact List.append_nil _
    · obtain ⟨rfl, grows, _, read, kept⟩ := iterating.growing.packed.insert inserted
      have same : ∀ n ≤ settled.count,
          (List.range n).map settled.get = (List.range n).map after.get := by
        intro n below
        refine List.map_congr_left (fun i member => ?_)
        have inside := List.mem_range.mp member
        exact (Slots.get_congr (kept i (by omega))).symm
      refine ⟨after, growing, fun d stage same => ?_, fun d => ?_, ?_, examined⟩
      · exact (iterating.inOrder d stage (others d stage same)).mono (by omega) count used
      · rw [taken, items_quiet quiet, iterating.items d]
        exact same _ (iterating.taken_le d)
      · rw [stored_append, iterating.stored, same _ (Nat.le_refl _), grows, List.range_succ,
          List.map_append, List.map_singleton, read]

theorem run {memory : Nat → Slot B} {trace : List (ι × StoreEvent B)}
    (fresh : Fresh memory capacity dataSize config)
    (small : Slots.slotMetadataSize + dataSize < usizeModulus)
    (run : Run (Guarded (Step Moves) Published) config trace last) :
    ∃ settled, Iterating capacity dataSize trace last settled := by
  refine run.history (P := fun past config =>
    ∃ settled, Iterating capacity dataSize past config settled) ?_ [] ⟨_, of_fresh fresh small⟩
  rintro past config ⟨c, event⟩ last ⟨settled, iterating⟩ stepped
  exact iterating.step stepped

end Iterating

/-- A scan over slots that are all free. -/
theorem scan_free [DecidableEq ι] (config : Config ι (StoreShared B) (Member B)) (c : ι)
    (shared : StoreShared B) (found current length : Nat)
    (free : ∀ i, current ≤ i → i < current + length → shared.slots.isFree i = true) :
    Run (Step Moves) (config.moved c shared (.iterating (.scanning ⟨current, found⟩)))
      ((List.range' current length).map (fun i => (c, .examined i)))
      (config.moved c shared (.iterating (.scanning ⟨current + length, found⟩))) := by
  induction length generalizing current with
  | zero => exact .refl _
  | succ length ih =>
    have unused := free current (Nat.le_refl _) (by omega)
    have moves : Moves shared (.iterating (.scanning ⟨current, found⟩)) _ _ _ := .read _
    simp only [NextStage.advance, unused, if_true] at moves
    have rest := ih (current + 1) (fun i low high => free i (by omega) (by omega))
    rw [show current + 1 + length = current + (length + 1) by omega] at rest
    exact .next (.again moves) rest

section Runs
variable [DecidableEq ι] {capacity dataSize : Nat} {memory : Nat → Slot B}
  {config middle last : Config ι (StoreShared B) (Member B)}

/-- A scan that has stepped over the slot being counted leaves the table. -/
theorem Growing.overrun {settled : Slots B} (growing : Growing capacity dataSize middle settled)
    {c : ι} {i : Nat} (stepped : Step Moves middle (c, .examined i) last)
    (crossed : ¬ Published middle (c, .examined i)) :
    ∃ more final, Run (Step Moves) last more final ∧ (∀ label ∈ more, label.1 = c) ∧
      (c, .examined capacity) ∈ more := by
  obtain ⟨moves⟩ := stepped
  simp only [Published, not_forall, not_not] at crossed
  obtain ⟨d, insertion, inserting, counted⟩ := crossed
  obtain ⟨stage, part, _, only⟩ := growing.part
  obtain nothing | rfl := only d insertion inserting
  · rw [nothing] at counted
    cases counted
  have glimpse := part.glimpse
  have first := growing.packed.firstFree
  obtain ⟨rfl, room, begun⟩ := glimpse.started i counted
  rw [growing.packed.sized.capacity] at room
  have free : ∀ j, settled.count ≤ j → j < capacity → middle.shared.slots.isFree j = true := by
    intro j low high
    have unused := growing.packed.free_iff.mpr ⟨low, high⟩
    rw [Slots.isFree]
    by_cases same : j = settled.header.firstFree
    · subst same
      rw [begun]
      exact Slots.isFree_of_free unused
    · rw [glimpse.others j same]
      exact Slots.isFree_of_free unused
  generalize own : middle.client c = member at moves
  generalize happened : StoreEvent.examined settled.header.firstFree = event at moves
  cases moves with
  | locked data positive => cases happened
  | unlocked => cases happened
  | @stored stage next event slots advanced =>
    obtain ⟨_, unread, _⟩ := (Moves.stored advanced : Moves middle.shared _ _ _ _).inserts
    exact absurd happened.symm (unread _)
  | read stage =>
    cases stage with
    | resting iterator =>
      simp only [NextStage.advance] at happened
      split at happened <;> cases happened
    | reading iterator => cases happened
    | scanning iterator =>
      have current : iterator.current = settled.header.firstFree := by
        simp only [NextStage.advance] at happened
        split at happened <;> exact (StoreEvent.examined.inj happened).symm
      have unused := free iterator.current (by omega) (by omega)
      simp only [NextStage.advance, unused, if_true]
      have scan := scan_free middle c middle.shared iterator.found (iterator.current + 1)
        (capacity - (iterator.current + 1)) (fun j low high => free j (by omega) (by omega))
      have reached : iterator.current + 1 + (capacity - (iterator.current + 1)) = capacity := by
        omega
      rw [reached] at scan
      have moves : Moves middle.shared (.iterating (.scanning ⟨capacity, iterator.found⟩)) _ _ _ :=
        .read _
      have out : ((NextStage.scanning ⟨capacity, iterator.found⟩).advance
          middle.shared.slots).1 = .examined capacity := by
        simp only [NextStage.advance]
        split <;> rfl
      rw [out] at moves
      refine ⟨_, _, scan.trans (.next (.again moves) (.refl _)), ?_, ?_⟩
      · intro label member
        rcases List.mem_append.mp member with walked | stop
        · obtain ⟨j, _, rfl⟩ := List.mem_map.mp walked
          rfl
        · rw [List.mem_singleton.mp stop]
      · exact List.mem_append_right _ (List.mem_singleton_self _)

/-- Iterators over a table that only grows. While none of them reads what an
insertion has half published, each yields the records in the order in which they
were inserted, stops only when it has them all, and stays within the table. One
that reads the state of a slot between the store of the count and that of the state
gets out of the table by its own further reads. -/
theorem growing_iteration (fresh : Fresh memory capacity dataSize config)
    (small : Slots.slotMetadataSize + dataSize < usizeModulus) :
    (∀ trace last, Run (Guarded (Step Moves) Published) config trace last →
      (∀ c, items c trace <+: stored trace) ∧ (stored trace).length ≤ capacity ∧
      ∀ c i, (c, .examined i) ∈ trace → i < capacity) ∧
    (∀ past c rest last,
      Run (Guarded (Step Moves) Published) config (past ++ (c, .finished) :: rest) last →
      items c past = stored past) ∧
    ∀ trace middle c i last, Run (Step Moves) config trace middle →
      Step Moves middle (c, .examined i) last → ¬ Published middle (c, .examined i) →
      ∃ more final, Run (Step Moves) last more final ∧ (∀ label ∈ more, label.1 = c) ∧
        (c, .examined capacity) ∈ more := by
  refine ⟨fun trace last run => ?_, fun past c rest last run => ?_, ?_⟩
  · obtain ⟨settled, iterating⟩ := Iterating.run fresh small run
    refine ⟨fun c => ?_, ?_, iterating.examined⟩
    · have below := iterating.taken_le c
      rw [iterating.items c, iterating.stored, ← Nat.min_eq_left below, ← List.take_range,
        List.map_take]
      exact List.take_prefix _ _
    · rw [iterating.stored, List.length_map, List.length_range]
      exact iterating.growing.packed.count_le
  · obtain ⟨state, after, before, ⟨stepped, published⟩, _⟩ := run.split
    obtain ⟨settled, iterating⟩ := Iterating.run fresh small before
    rw [iterating.items c, iterating.stored]
    generalize happened : (c, StoreEvent.finished) = label at stepped
    obtain ⟨moves⟩ := stepped
    rename_i d event shared moved
    cases happened
    cases own : state.client c with
    | inserting stage =>
      rw [own] at moves
      exact absurd rfl moves.inserts.2.2.2.1
    | iterating stage =>
      rw [own] at moves
      generalize happened : (StoreEvent.finished : StoreEvent B) = event at moves
      cases moves
      rw [happened] at published
      have inStep := iterating.inStep own published
      rw [← happened] at inStep
      generalize (stage.advance state.shared.slots).2 = next at inStep
      cases inStep with
      | finished all => rw [taken, NextStage.taken, all]
  · intro trace middle c i last run stepped crossed
    obtain ⟨settled, growing⟩ := (Growing.of_fresh fresh small).run run
    exact growing.overrun stepped crossed

end Runs

/-! ### One insertion and one iterator -/

/-- Member `false` inserts, member `true` iterates. -/
def growingStart : Config Bool (StoreShared Nat) (Member Nat) where
  shared := ⟨Slots.emptyStore, 1⟩
  client c := if c then .iterating (.resting Slots.iter) else .inserting .outside

theorem growingStart_fresh : Fresh (fun _ => ⟨.free, 0, []⟩) 2 1 growingStart where
  shared := rfl
  ready c := by
    cases c with
    | false => exact .inl rfl
    | true => exact .inr rfl

/-- After the insertion the iterator yields its record; in the middle of it the
iterator steps over the slot and leaves the table. -/
theorem growing_iteration_sample :
    (∃ trace last, Run (Guarded (Step Moves) Published) growingStart trace last ∧
      items true trace = [[7]] ∧ items true trace <+: stored trace) ∧
    ∃ trace middle last more final, Run (Step Moves) growingStart trace middle ∧
      Step Moves middle (true, .examined 0) last ∧ Run (Step Moves) last more final ∧
      (true, .examined 2) ∈ more := by
  obtain ⟨inOrder, _, overrun⟩ := growing_iteration growingStart_fresh (by decide)
  let half := (Slots.emptyStore.writeFirstFree 1).addCount
  let whole := ((half.writeState 0 .occupied).writeSize 0 1).copyBytes 0 [7]
  let counting := growingStart.moved false ⟨half, 0⟩ (.inserting (.writeState 0 [7]))
  let complete := growingStart.moved false ⟨whole, 1⟩ (.inserting .outside)
  have begins : Run (Guarded (Step Moves) Published) growingStart
      [(false, .locked [7]), (false, .stored), (false, .stored)] counting :=
    .next ⟨.move (.locked [7] (by decide)), trivial⟩
      (.next ⟨.again (.stored rfl), trivial⟩ (.next ⟨.again (.stored rfl), trivial⟩ (.refl _)))
  constructor
  · have ends : Run (Guarded (Step Moves) Published) counting
        [(false, .stored), (false, .stored), (false, .inserted [7]), (false, .unlocked)] complete :=
      .next ⟨.again (.stored rfl), trivial⟩ (.next ⟨.again (.stored rfl), trivial⟩
        (.next ⟨.again (.stored rfl), trivial⟩ (.next ⟨.again .unlocked, trivial⟩ (.refl _))))
    -- nothing is being inserted any more when the iterator reads
    have outside : ∀ (stage : NextStage) d insertion,
        (complete.moved true ⟨whole, 1⟩ (.iterating stage)).client d = .inserting insertion →
          insertion = .outside := by
      intro stage d insertion inserting
      cases d with
      | false =>
        cases inserting
        rfl
      | true => cases inserting
    have published : ∀ (stage : NextStage) event,
        Published (complete.moved true ⟨whole, 1⟩ (.iterating stage)) (true, event) := by
      intro stage event
      cases event with
      | examined i | yielded i data =>
        intro d insertion inserting
        rw [outside stage d insertion inserting]
        exact nofun
      | _ => trivial
    have reads : Run (Guarded (Step Moves) Published) complete
        [(true, .remaining), (true, .examined 0), (true, .yielded 0 [7])]
        (complete.moved true ⟨whole, 1⟩ (.iterating (.resting ⟨1, 1⟩))) :=
      .next ⟨.move (.read (.resting Slots.iter)), trivial⟩
        (.next ⟨.again (.read (.scanning ⟨0, 0⟩)), published _ _⟩
          (.next ⟨.again (.read (.reading ⟨0, 1⟩)), published _ _⟩ (.refl _)))
    have run := begins.trans (ends.trans reads)
    exact ⟨_, _, run, rfl, (inOrder _ _ run).1 true⟩
  · let crossing := counting.moved true ⟨half, 0⟩ (.iterating (.scanning ⟨0, 0⟩))
    have counts : Run (Step Moves) counting [(true, .remaining)] crossing :=
      .next (.move (.read (.resting Slots.iter))) (.refl _)
    have crosses : Step Moves crossing (true, .examined 0)
        (crossing.moved true ⟨half, 0⟩ (.iterating (.scanning ⟨1, 0⟩))) :=
      .move (.read (.scanning ⟨0, 0⟩))
    have run := begins.unguarded.trans counts
    obtain ⟨more, final, scan, _, out⟩ := overrun _ _ true 0 _ run crosses
      (fun published => published false _ rfl rfl)
    exact ⟨_, _, _, more, final, run, crosses, scan, out⟩

end InMemoryTable
