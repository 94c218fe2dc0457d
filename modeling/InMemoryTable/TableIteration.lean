import InMemoryTable.Library.Iteration
import InMemoryTable.Lockstep
import InMemoryTable.SlotsIterator

/-! What `iter()` and `keys()` yield when nothing else happens meanwhile, and the
agreement of the two after any sequence of calls. -/
namespace InMemoryTable
open Transition

namespace Slots
variable {B : Type} {store : Slots B}

/-- The slots in use from `current` on, in slot order. -/
def occupiedFrom (store : Slots B) (current : Nat) : List Nat :=
  store.occupiedSlots.filter (current ≤ ·)

theorem occupiedFrom_zero : store.occupiedFrom 0 = store.occupiedSlots :=
  List.filter_eq_self.mpr (by simp)

theorem mem_occupiedFrom {current i : Nat} :
    i ∈ store.occupiedFrom current ↔ current ≤ i ∧ store.Occupied i := by
  simp [occupiedFrom, mem_occupiedSlots, and_comm]

theorem occupiedFrom_cons {current i : Nat} {rest : List Nat}
    (split : store.occupiedFrom current = i :: rest) :
    current ≤ i ∧ store.Occupied i ∧ (∀ j, current ≤ j → j < i → ¬ store.Occupied j) ∧
      store.occupiedFrom (i + 1) = rest := by
  have sorted : (i :: rest).Pairwise (· < ·) := by
    rw [← split]
    exact (List.pairwise_lt_range.filter _).filter _
  obtain ⟨low, used⟩ := mem_occupiedFrom.mp (split ▸ List.mem_cons_self)
  obtain ⟨first, _⟩ := List.pairwise_cons.mp sorted
  refine ⟨low, used, fun j reached before occupied => ?_, ?_⟩
  · have member : j ∈ i :: rest := split ▸ mem_occupiedFrom.mpr ⟨reached, occupied⟩
    rcases List.mem_cons.mp member with rfl | behind
    · omega
    · have := first j behind
      omega
  · have filtered : store.occupiedFrom (i + 1) =
        (store.occupiedFrom current).filter (i + 1 ≤ ·) := by
      rw [occupiedFrom, occupiedFrom, List.filter_filter]
      apply List.filter_congr
      intro j _
      by_cases above : i + 1 ≤ j
      · simp [above, show current ≤ j by omega]
      · simp [above]
    rw [filtered, split, List.filter_cons_of_neg (by simp)]
    exact List.filter_eq_self.mpr (fun j member => decide_eq_true (first j member))

/-- Without interference `next` yields the slots in use in slot order. -/
def Remaining (store : Slots B) (slots : List Nat) (iterator : SlotsIterator) : Prop :=
  store.occupiedFrom iterator.current = slots ∧ iterator.found + slots.length = store.count

theorem WellFormed.remaining_iter (wf : store.WellFormed) :
    store.Remaining store.occupiedSlots iter := by
  refine ⟨occupiedFrom_zero, ?_⟩
  change 0 + _ = store.header.count
  rw [wf.count_eq]
  omega

theorem Remaining.stops {iterator : SlotsIterator} (remaining : store.Remaining [] iterator)
    (fuel : Nat) : store.next fuel iterator = some ⟨none, [], iterator⟩ := by
  have finished : iterator.found ≥ store.count := by simp [← remaining.2]
  simp only [next, finished, if_true]

/-- The scan stops at the next slot in use, which lies in the table. -/
theorem Remaining.moves {i : Nat} {rest : List Nat} {iterator : SlotsIterator}
    (remaining : store.Remaining (i :: rest) iterator) :
    ∃ examined, store.next store.header.capacity iterator =
        some ⟨some (store.get i), examined, ⟨i + 1, iterator.found + 1⟩⟩ ∧
      (∀ j ∈ examined, j < store.header.capacity) ∧
      store.Remaining rest ⟨i + 1, iterator.found + 1⟩ := by
  obtain ⟨split, total⟩ := remaining
  obtain ⟨low, used, between, behind⟩ := occupiedFrom_cons split
  simp only [List.length_cons] at total
  have unfinished : ¬ iterator.found ≥ store.count := by omega
  have free : ∀ j, iterator.current ≤ j → j < i → store.isFree j = true := fun j reached before =>
    isFree_of_free ((free_or_occupied (before.trans used.1)).resolve_right (between j reached before))
  have skipped := skipFree_ok free ((not_isFree used.1).mpr used) low
    (show i < iterator.current + store.header.capacity by have := used.1; omega)
  refine ⟨_, by rw [next, if_neg unfinished, skipped]; rfl, ?_, behind, ?_⟩
  · intro j member
    have := used.1
    simp only [List.mem_range'_1] at member
    omega
  · simp only
    omega

/-- A call of `next` with as many reads as there are slots returns, and reads no
slot behind the last one. -/
theorem Remaining.within {slots : List Nat} {iterator : SlotsIterator}
    (remaining : store.Remaining slots iterator) :
    ∃ outcome, store.next store.header.capacity iterator = some outcome ∧
      ∀ i ∈ outcome.examined, i < store.header.capacity := by
  cases slots with
  | nil => exact ⟨_, remaining.stops _, by simp⟩
  | cons i rest =>
    obtain ⟨examined, moved, inside, _⟩ := remaining.moves
    exact ⟨_, moved, inside⟩

/-- An iterator that turns the bytes of each slot in use into an item. -/
structure Reads {α : Type} (store : Slots B) (step : SlotsIterator → Option (Option α × SlotsIterator))
    (rel : Nat → α → Prop) : Prop where
  stops : ∀ iterator, store.next store.header.capacity iterator = some ⟨none, [], iterator⟩ →
    step iterator = some (none, iterator)
  moves : ∀ iterator i examined following, store.Occupied i →
    store.next store.header.capacity iterator = some ⟨some (store.get i), examined, following⟩ →
    ∃ item, step iterator = some (some item, following) ∧ rel i item

section Reads
variable {α : Type} {step : SlotsIterator → Option (Option α × SlotsIterator)} {rel : Nat → α → Prop}

/-- These slots are still to come, all of them in use. -/
def Coming (store : Slots B) (slots : List Nat) (iterator : SlotsIterator) : Prop :=
  store.Remaining slots iterator ∧ ∀ i ∈ slots, store.Occupied i

theorem WellFormed.coming_iter (wf : store.WellFormed) : store.Coming store.occupiedSlots iter :=
  ⟨wf.remaining_iter, fun _ member => mem_occupiedSlots.mp member⟩

theorem Reads.stopped (reads : store.Reads step rel) {iterator : SlotsIterator}
    (coming : store.Coming [] iterator) : step iterator = some (none, iterator) :=
  reads.stops iterator (coming.1.stops _)

theorem Reads.moved (reads : store.Reads step rel) {i : Nat} {rest : List Nat}
    {iterator : SlotsIterator} (coming : store.Coming (i :: rest) iterator) :
    ∃ item following, step iterator = some (some item, following) ∧ rel i item ∧
      store.Coming rest following := by
  obtain ⟨remaining, used⟩ := coming
  obtain ⟨examined, moved, _, behind⟩ := remaining.moves
  obtain ⟨item, stepped, related⟩ := reads.moves _ _ _ _ (used i List.mem_cons_self) moved
  exact ⟨item, _, stepped, related, behind, fun j member => used j (List.mem_cons_of_mem _ member)⟩

/-- Such an iterator collects the items of all slots in use. -/
theorem WellFormed.collect_slots (wf : store.WellFormed) (reads : store.Reads step rel) :
    ∃ items, Iteration.collect step (store.header.capacity + 1) iter = some items ∧
      List.Forall₂ rel store.occupiedSlots items := by
  refine Iteration.collect_of_yields store.Coming rel ?_ ?_ wf.coming_iter ?_
  · exact fun coming => ⟨_, reads.stopped coming⟩
  · exact fun coming => reads.moved coming
  · rw [← wf.count_eq]
    have := wf.count_le
    omega

/-- It answers with these items in turn and with `None` from then on; every call
returns and stays within the table. -/
theorem WellFormed.answers_slots (wf : store.WellFormed) (reads : store.Reads step rel) :
    ∃ items, List.Forall₂ rel store.occupiedSlots items ∧ ∀ rounds, ∃ iterator outcome,
      Iteration.answers step rounds iter =
        some ((items.map some ++ List.replicate rounds none).take rounds, iterator) ∧
      store.next store.header.capacity iterator = some outcome ∧
      ∀ i ∈ outcome.examined, i < store.header.capacity := by
  obtain ⟨items, related, answered⟩ := Iteration.answers_of_yields store.Coming rel
    (fun coming => ⟨_, reads.stopped coming, coming⟩) (fun coming => reads.moved coming)
    wf.coming_iter
  refine ⟨items, related, fun rounds => ?_⟩
  obtain ⟨iterator, coming, same⟩ := answered rounds
  obtain ⟨outcome, returned, inside⟩ := coming.1.within
  exact ⟨iterator, outcome, same, returned, inside⟩

end Reads

end Slots

/-- `TableIterator::next`: a record that does not deserialize ends the iteration. -/
def TableIterator.next {T : Type} (codec : Bincode T) (slots : Slots UInt8) (fuel : Nat)
    (iterator : SlotsIterator) : Option (Option T × SlotsIterator) :=
  (slots.next fuel iterator).map (fun outcome =>
    match outcome.item with
    | none => (none, outcome.iterator)
    | some data => ((codec.deserialize data).toOption, outcome.iterator))

/-- `IndexIterator::next`: the key of the node in the next slot. -/
def IndexIterator.next {K B : Type} (layout : NodeLayout K B) (slots : Slots B) (fuel : Nat)
    (iterator : SlotsIterator) : Option (Option K × SlotsIterator) := do
  let outcome ← slots.next fuel iterator
  match outcome.item with
  | none => some (none, outcome.iterator)
  | some data => do
    let node ← layout.ofBytes data
    some (some node.key, outcome.iterator)

namespace Table
variable {K T R B : Type} (self : Table K B) (codec : Bincode T) (memory : TableMemory B)

/-- What `iter()` yields up to its first `None`; the number of slots bounds the
reads of a scan and the number of items. -/
def iter : Option (List T) :=
  Iteration.collect (TableIterator.next codec memory.slots memory.slots.header.capacity)
    (memory.slots.header.capacity + 1) Slots.iter

/-- What `keys()` yields. -/
def keys : Option (List K) :=
  Iteration.collect (IndexIterator.next self.primaryKeys.layout memory.index.slots
    memory.index.slots.header.capacity) (memory.index.slots.header.capacity + 1) Slots.iter

variable {self codec memory}

theorem records_read (decodable : ∀ i, memory.slots.Occupied i → ∃ record : T,
      codec.decode (memory.slots.get i) = .ok record) :
    memory.slots.Reads (TableIterator.next codec memory.slots memory.slots.header.capacity)
      (fun i record => codec.decode (memory.slots.get i) = .ok record) where
  stops iterator stopped := by
    rw [TableIterator.next, stopped]
    rfl
  moves iterator i examined following used moved := by
    obtain ⟨record, decoded⟩ := decodable i used
    refine ⟨record, ?_, decoded⟩
    rw [TableIterator.next, moved]
    unfold Bincode.decode at decoded
    split at decoded
    · cases decoded
    · rename_i stored
      cases decoded
      simp [stored, Except.toOption]

theorem keys_read {node : Nat → Node K}
    (read : ∀ i, memory.index.slots.Occupied i →
      self.primaryKeys.readNode memory.index i = some (node i)) :
    memory.index.slots.Reads (IndexIterator.next self.primaryKeys.layout memory.index.slots
      memory.index.slots.header.capacity) (fun i key => (node i).key = key) where
  stops iterator stopped := by
    simp only [IndexIterator.next, stopped, bind, Option.bind_some]
  moves iterator i examined following used moved := by
    have stored : self.primaryKeys.layout.ofBytes (memory.index.slots.get i) = some (node i) :=
      read i used
    exact ⟨_, by simp only [IndexIterator.next, moved, bind, Option.bind_some, stored], rfl⟩

end Table

/-! ### Every sequence of calls -/

/-- One call with its reply; each semaphore operation may succeed or fail. -/
inductive CallStep {K T R B : Type} [DecidableEq K] [TableRecord T K] (table : Table K B)
    (codec : Bincode T) :
    TableMemory B → Operation K T R × Reply T R → TableMemory B → Prop where
  | call {memory after : TableMemory B} {operation : Operation K T R} {reply : Reply T R}
      (semop : Nat → Except Errno Unit) :
      table.run codec semop memory operation = some (reply, after) →
      CallStep table codec memory (operation, reply) after

/-- The key of the last record that was inserted into a slot. -/
def insertedUnder {K T R : Type} [TableRecord T K] (calls : List (Operation K T R × Reply T R)) :
    Nat → Option K :=
  calls.foldl (fun keyOf call => call.1.noteInsertion call.2 keyOf) (fun _ => none)

section Calls
variable {K T R B : Type} [DecidableEq K] {table : Table K B} {codec : Bincode T}
  {capacity recordSize : Nat} {memory after : TableMemory B}

theorem Table.updateMany_absent {semop : Nat → Except Errno Unit} {updater : T → T}
    (absent : ∀ key, table.primaryKeys.get memory.index key = some none) (keys : List K)
    (count : Nat) : table.updateMany codec semop updater memory keys count =
      some (.ok count, memory) := by
  induction keys with
  | nil => rfl
  | cons key keys ih => simp only [Table.updateMany, absent, bind, Option.bind_some, ih]

/-- A table without a slot: no key is found, and nothing can be inserted. -/
theorem Table.run_without_slots [TableRecord T K] (semop : Nat → Except Errno Unit)
    (absent : ∀ key, table.primaryKeys.get memory.index key = some none)
    (full : memory.slots.header.capacity ≤ memory.slots.header.count)
    (operation : Operation K T R) :
    ∃ reply, table.run codec semop memory operation = some (reply, memory) := by
  cases operation with
  | insert record =>
    simp only [Table.run, Table.insert, absent, bind, Option.bind_some]
    split
    · exact ⟨_, rfl⟩
    · split
      · exact ⟨_, rfl⟩
      · rw [Slots.insert_full full]
        exact ⟨_, rfl⟩
  | find key => exact ⟨_, by simp only [Table.run, Table.find, absent]; rfl⟩
  | updateWithLock key f => exact ⟨_, by simp only [Table.run, Table.updateWithLock, absent]; rfl⟩
  | remove key => exact ⟨_, by simp only [Table.run, Table.remove, absent]; rfl⟩
  | updateMany keys updater =>
    exact ⟨_, by simp only [Table.run, Table.updateMany_absent absent]; rfl⟩

omit [DecidableEq K] in
theorem insertedUnder_append [TableRecord T K] (calls : List (Operation K T R × Reply T R))
    (call : Operation K T R × Reply T R) :
    insertedUnder (calls ++ [call]) = call.1.noteInsertion call.2 (insertedUnder calls) :=
  List.foldl_append ..

variable [Inhabited K] {layout : NodeLayout K B} {hasher : K → Nat} {semId : Nat}
  {data : Nat → Slot UInt8} {nodes : Nat → Slot B}

/-- The stores are in lockstep; a table without slots stays as it was created. -/
def Kept [TableRecord T K] (layout : NodeLayout K B) (hasher : K → Nat) (semId : Nat)
    (codec : Bincode T) (capacity recordSize : Nat) (data : Nat → Slot UInt8) (nodes : Nat → Slot B)
    (calls : List (Operation K T R × Reply T R)) (memory : TableMemory B) : Prop :=
  Lockstep (Table.handle layout hasher semId capacity) codec capacity recordSize memory
      (insertedUnder calls) ∧
    (1 ≤ capacity ∨ capacity = 0 ∧
      memory = (Table.createWithSize layout hasher semId capacity recordSize data nodes).2)

variable [TableRecord T K]

theorem Kept.run {calls : List (Operation K T R × Reply T R)}
    (kept : Kept layout hasher semId codec capacity recordSize data nodes calls memory)
    (small : Slots.slotMetadataSize + recordSize < usizeModulus)
    (semop : Nat → Except Errno Unit) (operation : Operation K T R) :
    ∃ reply after, (Table.handle layout hasher semId capacity).run codec semop memory operation =
        some (reply, after) ∧
      Kept layout hasher semId codec capacity recordSize data nodes (calls ++ [(operation, reply)])
        after := by
  obtain ⟨lockstep, positive | ⟨rfl, rfl⟩⟩ := kept
  · obtain ⟨reply, after, returned, kept⟩ :=
      lockstep.run semop (totalBuckets_pos positive) operation
    refine ⟨reply, after, returned, ?_, .inl positive⟩
    rwa [insertedUnder_append]
  · have absent : ∀ key, (Table.handle layout hasher semId 0).primaryKeys.get
        (Table.createWithSize layout hasher semId 0 recordSize data nodes).2.index key = some none :=
      fun _ => rfl
    obtain ⟨reply, returned⟩ := Table.run_without_slots semop absent (Nat.le_refl 0) operation
    exact ⟨reply, _, returned, .of_create layout hasher semId data nodes _ small, .inr ⟨rfl, rfl⟩⟩

omit [Inhabited K] in
/-- Nothing is ever found in a table without slots. -/
theorem Kept.absent {calls : List (Operation K T R × Reply T R)}
    (kept : Kept layout hasher semId codec 0 recordSize data nodes calls memory) (key : K) :
    (Table.handle layout hasher semId 0).primaryKeys.get memory.index key = some none := by
  obtain ⟨_, positive | ⟨_, rfl⟩⟩ := kept
  · contradiction
  · rfl

theorem Kept.of_run {calls : List (Operation K T R × Reply T R)}
    (small : Slots.slotMetadataSize + recordSize < usizeModulus)
    (run : Run (CallStep (Table.handle layout hasher semId capacity) codec)
      (Table.createWithSize layout hasher semId capacity recordSize data nodes).2 calls memory) :
    Kept layout hasher semId codec capacity recordSize data nodes calls memory := by
  refine run.history ?_ [] ⟨.of_create layout hasher semId data nodes _ small, ?_⟩
  · rintro past before _ after kept ⟨semop, called⟩
    obtain ⟨_, _, returned, kept⟩ := kept.run small semop _
    cases called.symm.trans returned
    exact kept
  · rcases Nat.eq_zero_or_pos capacity with rfl | positive
    · exact .inr ⟨rfl, rfl⟩
    · exact .inl positive

/-- Along every sequence of calls, whatever their results, both stores have the
same counter, free list and slots in use, node `i` belongs to record `i`, and
`keys()` and `iter()` yield key and record of the same slots in the same order. -/
theorem run_lockstep (layout : NodeLayout K B) (hasher : K → Nat) (semId : Nat)
    (codec : Bincode T) (capacity recordSize : Nat)
    (small : Slots.slotMetadataSize + recordSize < usizeModulus)
    (data : Nat → Slot UInt8) (nodes : Nat → Slot B)
    (calls : List (Operation K T R × Reply T R)) (memory : TableMemory B)
    (run : Run (CallStep (Table.handle layout hasher semId capacity) codec)
      (Table.createWithSize layout hasher semId capacity recordSize data nodes).2 calls memory) :
    memory.slots.header.capacity = capacity ∧
    Slots.Parallel memory.slots memory.index.slots ∧
    (∀ i, memory.index.slots.Occupied i → ∃ node,
      (Table.handle layout hasher semId capacity).primaryKeys.readNode memory.index i = some node ∧
        node.position = i) ∧
    (∃ records keys, Table.iter codec memory = some records ∧
      (Table.handle layout hasher semId capacity).keys memory = some keys ∧
      keys.length = records.length ∧
      List.Forall₂ (fun i record => codec.decode (memory.slots.get i) = .ok record)
        memory.slots.occupiedSlots records ∧
      List.Forall₂ (fun i key => insertedUnder calls i = some key)
        memory.slots.occupiedSlots keys) ∧
    ∀ semop (operation : Operation K T R),
      ((Table.handle layout hasher semId capacity).run codec semop memory operation).isSome := by
  have kept := Kept.of_run small run
  obtain ⟨order, node, represents, own⟩ := kept.1.nodes
  have member : ∀ i, memory.index.slots.Occupied i → i ∈ order := fun i => (represents.live i).mpr
  obtain ⟨records, iterated, decoded⟩ :=
    kept.1.slots.wellFormed.collect_slots (Table.records_read kept.1.decodable)
  obtain ⟨keys, listed, named⟩ :
      ∃ keys, (Table.handle layout hasher semId capacity).keys memory = some keys ∧
        List.Forall₂ (fun i key => (node i).key = key) memory.index.slots.occupiedSlots keys :=
    represents.slots.wellFormed.collect_slots
      (Table.keys_read (fun i used => represents.read i (member i used)))
  rw [kept.1.parallel.occupiedSlots_eq] at named
  refine ⟨kept.1.slots.capacity, kept.1.parallel, ?_, ⟨records, keys, iterated, listed,
    named.length_eq.symm.trans decoded.length_eq, decoded, ?_⟩, ?_⟩
  · exact fun i used => ⟨_, represents.read i (member i used), (own i (member i used)).1⟩
  · have live : ∀ i ∈ memory.slots.occupiedSlots, i ∈ order := fun i used =>
      member i (kept.1.parallel.occupied_iff.mp (Slots.mem_occupiedSlots.mp used))
    refine ((List.forall₂_and_left (p := (· ∈ order)) _ _).mpr ⟨live, named⟩).imp ?_
    rintro i _ ⟨live, rfl⟩
    exact (own i live).2
  · intro semop operation
    obtain ⟨reply, after, returned, _⟩ := kept.run small semop operation
    rw [returned]
    rfl

end Calls

/-- One slot, filled under the key 1 and then given a record of another key. -/
def rekeyed : List (Operation UInt8 (UInt8 × UInt8) Unit × Reply (UInt8 × UInt8) Unit) :=
  [(.insert (1, 2), .inserted (.ok 0)),
    (.updateWithLock 1 (fun _ => ((), (3, 4))), .updated (.ok (some ())))]

def oneSlot : TableMemory (Node UInt8) :=
  (Table.createWithSize (.cell UInt8) UInt8.toNat 0 1 2 (fun _ => ⟨.free, 0, []⟩)
    (fun _ => ⟨.free, 0, []⟩)).2

/-- The one record, found under the key 1, has the value 4. -/
def rekeyedMemory : TableMemory (Node UInt8) :=
  (Table.handle (.cell UInt8) UInt8.toNat 0 1).runAll .twoBytes oneSlot (rekeyed.map Prod.fst)

theorem rekeyed_run :
    Run (CallStep (Table.handle (.cell UInt8) UInt8.toNat 0 1) .twoBytes) oneSlot rekeyed
      rekeyedMemory :=
  .next (.call (fun _ => .ok ()) rfl) (.next (.call (fun _ => .ok ()) rfl) (.refl _))

theorem run_lockstep_sample :
    let memory := (Table.handle (.cell UInt8) UInt8.toNat 0 1).runAll .twoBytes oneSlot
      (rekeyed.map Prod.fst)
    Slots.Parallel memory.slots memory.index.slots ∧
      ∃ keys, (Table.handle (.cell UInt8) UInt8.toNat 0 1).keys memory = some keys ∧
        List.Forall₂ (fun i key => insertedUnder rekeyed i = some key) memory.slots.occupiedSlots
          keys := by
  intro memory
  obtain ⟨_, parallel, _, ⟨_, keys, _, listed, _, _, named⟩, _⟩ :=
    run_lockstep (.cell UInt8) UInt8.toNat 0 .twoBytes 1 2 (by decide) _ _ rekeyed memory rekeyed_run
  exact ⟨parallel, keys, listed, named⟩

end InMemoryTable
