import InMemoryTable.IndexRun
import InMemoryTable.StrewnNodes
import InMemoryTable.TableIteration

/-! The index as a first-in-first-out multimap that loses nodes when processes die in
its calls. -/
namespace InMemoryTable
open Simulation

/-- A multimap whose room is taken up by its entries, oldest first, and by lost nodes,
given by their keys. -/
structure LeakyMultimap (K : Type) where
  entries : List (K × Nat)
  lost : List K

/-- A call that returns, or one in which the process dies. -/
inductive FragileIndexCall (K : Type) where
  | returned (request : IndexCall K)
  | insertDied (key : K) (position : Nat)
  | removeDied (key : K)

def FragileIndexCall.isDeath {K : Type} : FragileIndexCall K → Bool
  | .returned _ => false
  | .insertDied _ _ | .removeDied _ => true

namespace LeakyMultimap
variable {K : Type} [DecidableEq K]

def size (self : LeakyMultimap K) : Nat := self.entries.length + self.lost.length

/-- What a dead insertion leaves; the room it takes is lost. -/
def insertDied (self : LeakyMultimap K) (capacity : Nat) (key : K) : LeakyMultimap K :=
  if self.size < capacity then { self with lost := key :: self.lost } else self

/-- What a dead removal leaves: it has taken effect, and its room is lost. -/
def removeDied (self : LeakyMultimap K) (key : K) : LeakyMultimap K :=
  match FifoMultimap.get self.entries key with
  | none => self
  | some _ => { entries := FifoMultimap.remove self.entries key, lost := key :: self.lost }

def occur (capacity : Nat) (self : LeakyMultimap K) :
    FragileIndexCall K → Option IndexReply × LeakyMultimap K
  | .returned (.insert key position) =>
    if self.size < capacity then
      (some (.inserted (.ok ())), { self with entries := self.entries ++ [(key, position)] })
    else (some (.inserted (.error (.tableFull capacity capacity))), self)
  | .returned (.remove key) =>
    (some (.removed (.ok ())), { self with entries := FifoMultimap.remove self.entries key })
  | .returned (.get key) => (some (.found (FifoMultimap.get self.entries key)), self)
  | .insertDied key _ => (none, self.insertDied capacity key)
  | .removeDied key => (none, self.removeDied key)

/-- At most one node is lost with each death. -/
theorem occur_lost_le (capacity : Nat) (self : LeakyMultimap K) (call : FragileIndexCall K) :
    (self.occur capacity call).2.lost.length ≤
      self.lost.length + if call.isDeath then 1 else 0 := by
  cases call with
  | returned request =>
    cases request with
    | insert key position =>
      simp only [occur]
      split <;> exact Nat.le_add_right _ _
    | remove key => exact Nat.le_add_right _ _
    | get key => exact Nat.le_add_right _ _
  | insertDied key position =>
    simp only [occur, insertDied]
    split
    · exact le_refl _
    · exact Nat.le_add_right _ _
  | removeDied key =>
    simp only [occur, removeDied]
    split
    · exact Nat.le_add_right _ _
    · exact le_refl _

theorem replay_lost_le (capacity : Nat) (calls : List (FragileIndexCall K))
    (self : LeakyMultimap K) :
    (replay (occur capacity) self calls).2.lost.length ≤
      self.lost.length + calls.countP FragileIndexCall.isDeath := by
  induction calls generalizing self with
  | nil => exact Nat.le_add_right _ _
  | cons call rest ih =>
    have head := self.occur_lost_le capacity call
    have tail := ih (self.occur capacity call).2
    rw [List.countP_cons]
    simp only [replay]
    omega

end LeakyMultimap

namespace Index
variable {K B : Type} {index : Index K B} {block : IndexBlock B} {capacity : Nat}
  {multimap : LeakyMultimap K}

/-- The block holds the entries in its chains and the lost nodes beside them. -/
def Leaks (index : Index K B) (capacity : Nat) (block : IndexBlock B)
    (multimap : LeakyMultimap K) : Prop :=
  ∃ order lost node, index.Strewn capacity block order lost node ∧
    multimap.entries = order.map (entryOf node) ∧
    multimap.lost = lost.map (fun i => (node i).key)

theorem Refines.leaks {entries : List (K × Nat)} (refines : index.Refines capacity block entries) :
    index.Leaks capacity block ⟨entries, []⟩ := by
  obtain ⟨order, node, represents, rfl⟩ := refines
  exact ⟨order, [], node, represents.strewn, rfl, rfl⟩

/-- Nodes with the same entries hold the same entries and lost keys. -/
theorem Strewn.leaks {order lost : List Nat} {node : Nat → Node K}
    (strewn : index.Strewn capacity block order lost node)
    (entries : order.map (entryOf node) = multimap.entries)
    (keys : lost.map (fun i => (node i).key) = multimap.lost) :
    index.Leaks capacity block multimap :=
  ⟨order, lost, node, strewn, entries.symm, keys.symm⟩

/-- A call, or what it has written when the process dies in it. -/
def occur [DecidableEq K] (index : Index K B) (block : IndexBlock B) :
    FragileIndexCall K → Option (Option IndexReply × IndexBlock B)
  | .returned request => (index.call block request).map (fun (reply, after) => (some reply, after))
  | .insertDied key position => some (none, index.insertStopped block key position)
  | .removeDied key => (index.removeStopped block key).map (fun after => (none, after))

namespace Leaks

theorem size_eq (leaks : index.Leaks capacity block multimap) :
    multimap.size = block.slots.header.count := by
  obtain ⟨order, lost, node, strewn, entries, keys⟩ := leaks
  rw [LeakyMultimap.size, entries, keys, List.length_map, List.length_map, strewn.length_eq]

theorem capacity_eq (leaks : index.Leaks capacity block multimap) :
    block.slots.header.capacity = capacity := by
  obtain ⟨_, _, _, strewn, _⟩ := leaks
  exact strewn.slots.capacity

theorem size_le (leaks : index.Leaks capacity block multimap) : multimap.size ≤ capacity := by
  obtain ⟨order, lost, node, strewn, entries, keys⟩ := leaks
  rw [LeakyMultimap.size, entries, keys, List.length_map, List.length_map]
  exact strewn.length_le

theorem insert_ok (leaks : index.Leaks capacity block multimap) (buckets : 0 < index.totalBuckets)
    (key : K) (position : Nat) (room : multimap.size < capacity) :
    (∃ after, index.insert block key position = some (.ok (), after) ∧
      index.Leaks capacity after
        { multimap with entries := multimap.entries ++ [(key, position)] }) ∧
      index.Leaks capacity (index.insertStopped block key position)
        { multimap with lost := key :: multimap.lost } := by
  obtain ⟨order, lost, node, strewn, entries, keys⟩ := leaks
  rw [LeakyMultimap.size, entries, keys, List.length_map, List.length_map] at room
  obtain ⟨new, stored, after, linked, stopped, inserted, whole, old, fresh, same⟩ :=
    strewn.insert_ok buckets key position room
  have kept : ∀ i ∈ lost, (stored i).key = (node i).key := fun i member =>
    congrArg Prod.fst (old i (List.mem_append_right _ member))
  have before : order.map (entryOf stored) = multimap.entries := by
    rw [entries]
    exact List.map_congr_left (fun i member => old i (List.mem_append_left _ member))
  refine ⟨⟨after, inserted, whole.leaks ?_ ?_⟩, stopped.leaks before ?_⟩
  · rw [List.map_congr_left (fun i _ => same i), List.map_append, before]
    simp [fresh]
  · rw [keys]
    exact List.map_congr_left
      (fun i member => (congrArg Prod.fst (same i)).trans (kept i member))
  · rw [List.map_cons, keys, List.map_congr_left kept]
    exact congrArg (· :: _) (congrArg Prod.fst fresh)

theorem insert_full (leaks : index.Leaks capacity block multimap) (buckets : 0 < index.totalBuckets)
    (key : K) (position : Nat) (full : capacity ≤ multimap.size) :
    index.insert block key position = some (.error (.tableFull capacity capacity), block) ∧
      index.insertStopped block key position = block := by
  obtain ⟨order, lost, node, strewn, entries, keys⟩ := leaks
  rw [LeakyMultimap.size, entries, keys, List.length_map, List.length_map] at full
  exact strewn.insert_full buckets key position full

theorem insertDied (leaks : index.Leaks capacity block multimap) (buckets : 0 < index.totalBuckets)
    (key : K) (position : Nat) :
    index.Leaks capacity (index.insertStopped block key position)
      (multimap.insertDied capacity key) := by
  rw [LeakyMultimap.insertDied]
  by_cases room : multimap.size < capacity
  · rw [if_pos room]
    exact (leaks.insert_ok buckets key position room).2
  · rw [if_neg room, (leaks.insert_full buckets key position (by omega)).2]
    exact leaks

section Search
variable [DecidableEq K]

theorem get_eq (leaks : index.Leaks capacity block multimap) (buckets : 0 < index.totalBuckets)
    (key : K) : index.get block key = some (FifoMultimap.get multimap.entries key) := by
  obtain ⟨order, lost, node, strewn, entries, keys⟩ := leaks
  rw [get, strewn.search_eq buckets, entries, get_entries, Option.map_some, Option.map_map]
  rfl

theorem remove_ok (leaks : index.Leaks capacity block multimap) (buckets : 0 < index.totalBuckets)
    (key : K) :
    (∃ after, index.remove block key = some (.ok (), after) ∧ index.Leaks capacity after
      { multimap with entries := FifoMultimap.remove multimap.entries key }) ∧
    ∃ after, index.removeStopped block key = some after ∧
      index.Leaks capacity after (multimap.removeDied key) := by
  obtain ⟨order, lost, node, strewn, entries, keys⟩ := leaks
  have found : FifoMultimap.get multimap.entries key =
      (order.find? (fun i => (node i).key = key)).map (fun i => (node i).position) := by
    rw [entries, get_entries]
  cases earliest : order.find? (fun i => (node i).key = key) with
  | none =>
    rw [earliest, Option.map_none] at found
    obtain ⟨removed, stopped⟩ := strewn.remove_absent buckets earliest
    rw [FifoMultimap.remove_of_get_none found, LeakyMultimap.removeDied, found]
    exact ⟨⟨block, removed, strewn.leaks entries.symm keys.symm⟩, block, stopped,
      strewn.leaks entries.symm keys.symm⟩
  | some removing =>
    rw [earliest, Option.map_some] at found
    obtain ⟨rfl, pre, post, rfl, first⟩ := find_key earliest
    obtain ⟨after, unlinked, stopped, torn, removed, same⟩ := strewn.remove_ok buckets first
    have rest : (pre ++ post).map (entryOf unlinked) =
        FifoMultimap.remove multimap.entries (node removing).key := by
      rw [entries, remove_entries first rfl]
      exact List.map_congr_left (fun i _ => same i)
    have kept : lost.map (fun i => (unlinked i).key) = multimap.lost := by
      rw [keys]
      exact List.map_congr_left (fun i _ => congrArg Prod.fst (same i))
    refine ⟨⟨_, removed, torn.giveBack.leaks rest kept⟩, after, stopped, ?_⟩
    rw [LeakyMultimap.removeDied, found]
    refine torn.leaks rest ?_
    rw [List.map_cons, kept]
    exact congrArg (· :: _) (congrArg Prod.fst (same removing))

omit [DecidableEq K] in
/-- What `keys()` yields: a lost node is as good as a linked one. -/
theorem collect_keys (leaks : index.Leaks capacity block multimap) :
    ∃ keys, Iteration.collect
        (IndexIterator.next index.layout block.slots block.slots.header.capacity)
        (block.slots.header.capacity + 1) Slots.iter = some keys ∧
      keys.Perm (multimap.entries.map Prod.fst ++ multimap.lost) := by
  obtain ⟨order, lost, node, strewn, entries, lostKeys⟩ := leaks
  have reads : block.slots.Reads (IndexIterator.next index.layout block.slots
      block.slots.header.capacity) (fun i key => (node i).key = key) := by
    refine ⟨fun iterator stopped => ?_, fun iterator i examined following used moved => ?_⟩
    · simp only [IndexIterator.next, stopped, bind, Option.bind_some]
    · have stored : index.layout.ofBytes (block.slots.get i) = some (node i) :=
        strewn.read i ((strewn.live i).mpr used)
      exact ⟨_, by simp only [IndexIterator.next, moved, bind, Option.bind_some, stored], rfl⟩
  obtain ⟨keys, collected, related⟩ := strewn.slots.wellFormed.collect_slots reads
  refine ⟨keys, collected, ?_⟩
  obtain rfl : block.slots.occupiedSlots.map (fun i => (node i).key) = keys :=
    List.forall₂_eq_eq_eq ▸ List.forall₂_map_left_iff.mpr related
  have perm : block.slots.occupiedSlots.Perm (order ++ lost) :=
    (List.perm_ext_iff_of_nodup block.slots.occupiedSlots_nodup strewn.nodup).mpr
      (fun i => Slots.mem_occupiedSlots.trans (strewn.live i).symm)
  rw [entries, lostKeys, List.map_map]
  exact (perm.map _).trans (by rw [List.map_append]; exact .refl _)

/-- A call, or a call in which the process dies, does what it does to the multimap. -/
theorem occur_multimap (leaks : index.Leaks capacity block multimap)
    (buckets : 0 < index.totalBuckets) (call : FragileIndexCall K) :
    ∃ after, index.occur block call = some ((multimap.occur capacity call).1, after) ∧
      index.Leaks capacity after (multimap.occur capacity call).2 := by
  cases call with
  | returned request =>
    cases request with
    | insert key position =>
      by_cases room : multimap.size < capacity
      · obtain ⟨⟨after, inserted, leaks⟩, _⟩ := leaks.insert_ok buckets key position room
        refine ⟨after, ?_, by simpa only [LeakyMultimap.occur, room, if_true] using leaks⟩
        simp [occur, Index.call, inserted, LeakyMultimap.occur, room]
      · have refused := (leaks.insert_full buckets key position (by omega)).1
        refine ⟨block, ?_, by simpa only [LeakyMultimap.occur, room, if_false] using leaks⟩
        simp [occur, Index.call, refused, LeakyMultimap.occur, room]
    | remove key =>
      obtain ⟨⟨after, removed, leaks⟩, _⟩ := leaks.remove_ok buckets key
      exact ⟨after, by simp [occur, Index.call, removed, LeakyMultimap.occur], leaks⟩
    | get key =>
      exact ⟨block, by simp [occur, Index.call, leaks.get_eq buckets key, LeakyMultimap.occur],
        leaks⟩
  | insertDied key position => exact ⟨_, rfl, leaks.insertDied buckets key position⟩
  | removeDied key =>
    obtain ⟨_, after, stopped, leaks⟩ := leaks.remove_ok buckets key
    exact ⟨after, by simp [occur, stopped, LeakyMultimap.occur], leaks⟩

end Search
end Leaks

/-- In every sequence of calls on a new index, in any of which the process may die behind
`insert_node` or in front of `remove_node`, every call returns and answers as the
multimap of the calls before. Each death takes the room of one entry at most, for good,
and `keys()` yields the keys of the entries and of the lost nodes. -/
theorem deaths_lose_nodes [DecidableEq K] [Inhabited K] (layout : NodeLayout K B)
    (hasher : K → Nat) (capacity : Nat) (memory : Nat → Slot B) (positive : 1 ≤ capacity)
    (calls : List (FragileIndexCall K)) :
    let index := handle layout hasher capacity
    let result := replay (LeakyMultimap.occur capacity) ⟨[], []⟩ calls
    ∃ block keys,
      execute index.occur (index.newBlock capacity memory) calls = some (result.1, block) ∧
      result.2.size = block.slots.header.count ∧ result.2.size ≤ capacity ∧
      result.2.lost.length ≤ calls.countP FragileIndexCall.isDeath ∧
      Iteration.collect (IndexIterator.next layout block.slots capacity) (capacity + 1)
        Slots.iter = some keys ∧
      keys.Perm (result.2.entries.map Prod.fst ++ result.2.lost) := by
  intro index result
  have start : index.Leaks capacity (index.newBlock capacity memory) ⟨[], []⟩ :=
    (newBlock_refines index capacity memory).leaks
  obtain ⟨block, executed, leaks⟩ := simulates_replay (LeakyMultimap.occur capacity)
    (index.Leaks capacity) (fun call leaks => leaks.occur_multimap (totalBuckets_pos positive) call)
    start calls
  obtain ⟨keys, collected, perm⟩ := leaks.collect_keys
  have few := LeakyMultimap.replay_lost_le capacity calls (⟨[], []⟩ : LeakyMultimap K)
  rw [List.length_nil, Nat.zero_add] at few
  rw [leaks.capacity_eq] at collected
  exact ⟨block, keys, executed, leaks.size_eq, leaks.size_le, few, collected, perm⟩

/-- Two keys of one bucket: the removal of the first dies, and then there is room for one. -/
def fragileCalls : List (FragileIndexCall Nat) :=
  [.returned (.insert 7 0), .returned (.insert 9 1), .removeDied 7, .returned (.insert 5 2),
    .returned (.get 7), .returned (.get 9)]

theorem deaths_lose_nodes_sample :
    ∃ block keys,
      execute (handle (.cell Nat) id 2).occur
        ((handle (.cell Nat) id 2).newBlock 2 (fun _ => ⟨.free, 0, []⟩)) fragileCalls =
          some ([some (.inserted (.ok ())), some (.inserted (.ok ())), none,
            some (.inserted (.error (.tableFull 2 2))), some (.found none), some (.found (some 1))],
            block) ∧
      Iteration.collect (IndexIterator.next (.cell Nat) block.slots 2) 3 Slots.iter = some keys ∧
      keys.Perm [9, 7] := by
  obtain ⟨block, keys, executed, _, _, _, collected, perm⟩ :=
    deaths_lose_nodes (.cell Nat) id 2 (fun _ => ⟨.free, 0, []⟩) (by decide) fragileCalls
  exact ⟨block, keys, executed, collected, perm⟩

end Index
end InMemoryTable
