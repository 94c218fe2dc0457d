import InMemoryTable.IndexInvariant
import InMemoryTable.Library.Simulation

/-! Every sequence of index calls from a new index answers like a bounded
first-in-first-out multimap, and every call returns. -/
namespace InMemoryTable
open Simulation

inductive IndexCall (K : Type) where
  | insert (key : K) (position : Nat)
  | remove (key : K)
  | get (key : K)

inductive IndexReply where
  | inserted (result : Except InMemoryTableError Unit)
  | removed (result : Except InMemoryTableError Unit)
  | found (position : Option Nat)

def IndexCall.key {K : Type} : IndexCall K → K
  | .insert key _ | .remove key | .get key => key

namespace Index
variable {K B : Type} [DecidableEq K] {index : Index K B} {block : IndexBlock B} {capacity : Nat}
  {entries : List (K × Nat)}

def call (index : Index K B) (block : IndexBlock B) :
    IndexCall K → Option (IndexReply × IndexBlock B)
  | .insert key position =>
    (index.insert block key position).map (fun (result, after) => (.inserted result, after))
  | .remove key => (index.remove block key).map (fun (result, after) => (.removed result, after))
  | .get key => (index.get block key).map (fun position => (.found position, block))

/-- A multimap of at most `capacity` entries, oldest first. -/
def multimap (capacity : Nat) (entries : List (K × Nat)) :
    IndexCall K → IndexReply × List (K × Nat)
  | .insert key position =>
    if entries.length < capacity then (.inserted (.ok ()), entries ++ [(key, position)])
    else (.inserted (.error (.tableFull capacity capacity)), entries)
  | .remove key => (.removed (.ok ()), FifoMultimap.remove entries key)
  | .get key => (.found (FifoMultimap.get entries key), entries)

theorem Refines.call_multimap (refines : index.Refines capacity block entries)
    (buckets : 0 < index.totalBuckets) (request : IndexCall K) :
    ∃ after, index.call block request = some ((multimap capacity entries request).1, after) ∧
      index.Refines capacity after (multimap capacity entries request).2 := by
  cases request with
  | insert key position =>
    by_cases room : entries.length < capacity
    · obtain ⟨after, inserted, refined⟩ := refines.insert_ok buckets key position room
      exact ⟨after, by simp [call, multimap, inserted, room], by simpa [multimap, room] using refined⟩
    · have full := refines.insert_full buckets key position (by omega)
      exact ⟨block, by simp [call, multimap, full, room], by simpa [multimap, room] using refines⟩
  | remove key =>
    obtain ⟨after, removed, refined⟩ := refines.remove_ok buckets key
    exact ⟨after, by simp [call, multimap, removed], refined⟩
  | get key =>
    exact ⟨block, by simp [call, multimap, refines.get_eq buckets key], refines⟩

def Multimap (capacity : Nat) (entries : List (K × Nat)) (request : IndexCall K)
    (reply : IndexReply) (after : List (K × Nat)) : Prop :=
  (reply, after) = multimap capacity entries request

/-- A call on one key leaves the answers for every other key unchanged. -/
theorem multimap_get_other (request : IndexCall K) {other : K} (different : request.key ≠ other) :
    FifoMultimap.get (multimap capacity entries request).2 other =
      FifoMultimap.get entries other := by
  cases request with
  | insert key position =>
    simp only [multimap]
    split
    · exact FifoMultimap.get_append_other different
    · rfl
  | remove key => exact FifoMultimap.get_remove_other different
  | get key => rfl

theorem Refines.call_get_other (refines : index.Refines capacity block entries)
    (buckets : 0 < index.totalBuckets) {request : IndexCall K} {reply : IndexReply}
    {after : IndexBlock B} (called : index.call block request = some (reply, after)) {other : K}
    (different : request.key ≠ other) : index.get after other = index.get block other := by
  obtain ⟨after', same, refined⟩ := refines.call_multimap buckets request
  cases called.symm.trans same
  rw [refined.get_eq buckets, refines.get_eq buckets, multimap_get_other request different]

/-- Every sequence of calls on a new index returns and leaves an index that represents
the entries of the multimap. -/
theorem execute_refines [Nonempty K] (layout : NodeLayout K B) (hasher : K → Nat) (capacity : Nat)
    (memory : Nat → Slot B) (requests : List (IndexCall K)) (positive : 1 ≤ capacity) :
    ∃ replies block entries,
      execute (handle layout hasher capacity).call
        ((handle layout hasher capacity).newBlock capacity memory) requests =
          some (replies, block) ∧
      Follows (Multimap capacity) [] requests replies entries ∧
      (handle layout hasher capacity).Refines capacity block entries := by
  refine simulates (Multimap capacity) ((handle layout hasher capacity).Refines capacity) ?_
    (newBlock_refines _ capacity memory) requests
  intro block entries request refines
  obtain ⟨after, called, refined⟩ := refines.call_multimap (totalBuckets_pos positive) request
  exact ⟨_, after, _, called, rfl, refined⟩

/-- The replies of any sequence of calls on a new index are those of a bounded
multimap, and a call on one key never changes the answer for another. -/
theorem run_multimap (layout : NodeLayout K B) (hasher : K → Nat) (capacity : Nat)
    (memory : Nat → Slot B) (requests : List (IndexCall K)) (positive : 1 ≤ capacity) :
    ∃ replies block entries,
      execute (handle layout hasher capacity).call
        ((handle layout hasher capacity).newBlock capacity memory) requests =
          some (replies, block) ∧
      Follows (Multimap capacity) [] requests replies entries ∧
      entries.length ≤ capacity ∧
      ∀ request reply after other,
        (handle layout hasher capacity).call block request = some (reply, after) →
        request.key ≠ other →
        (handle layout hasher capacity).get after other =
          (handle layout hasher capacity).get block other := by
  have buckets : 0 < (handle layout hasher capacity).totalBuckets := totalBuckets_pos positive
  cases requests with
  | nil =>
    refine ⟨[], _, [], rfl, .done _, Nat.zero_le _, ?_⟩
    intro request reply after other called different
    have : Nonempty K := ⟨other⟩
    exact (newBlock_refines _ capacity memory).call_get_other buckets called different
  | cons first rest =>
    have : Nonempty K := ⟨first.key⟩
    obtain ⟨replies, block, entries, executed, follows, refines⟩ :=
      execute_refines layout hasher capacity memory (first :: rest) positive
    exact ⟨replies, block, entries, executed, follows, refines.length_le,
      fun request reply after other called different =>
        refines.call_get_other buckets called different⟩

/-- Two entries of one key, the older of which is removed. -/
def sampleRequests : List (IndexCall Nat) := [.insert 7 0, .insert 7 1, .remove 7, .get 7]

theorem run_multimap_sample :
    ∃ replies block entries,
      execute (handle (.cell Nat) id 2).call
        ((handle (.cell Nat) id 2).newBlock 2 (fun _ => ⟨.free, 0, []⟩)) sampleRequests =
          some (replies, block) ∧
      Follows (Multimap 2) [] sampleRequests replies entries := by
  obtain ⟨replies, block, entries, executed, follows, _⟩ :=
    run_multimap (.cell Nat) id 2 (fun _ => ⟨.free, 0, []⟩) sampleRequests (by decide)
  exact ⟨replies, block, entries, executed, follows⟩

end Index
end InMemoryTable
