import InMemoryTable.IndexRun
import Mathlib.Data.List.Perm.Subperm

/-! The chains of the index share the node slots in use between them, so that each of
the three loops comes to its end in the chain where it starts. -/
namespace InMemoryTable
open Chain Simulation

/-- The loop has stopped after at most `count` rounds and has read slots in use only. -/
def Walk.Within {K B : Type} (walk : Walk K) (slots : Slots B) : Prop :=
  walk.stop.isSome ∧ walk.reads.length < slots.count ∧ ∀ i ∈ walk.reads, slots.Occupied i

namespace Index
variable {K B : Type} {block : IndexBlock B} {first : Nat}

/-- What the chains of the buckets are: node `i` stands in the chain of the bucket of
its key, once, and in no other; a slot that stands in no chain is free. -/
structure Chains (index : Index K B) (block : IndexBlock B) (node : Nat → Node K)
    (chains : Nat → List Nat) : Prop where
  read : ∀ i, block.slots.Occupied i → index.readNode block i = some (node i)
  linked : ∀ bucket < index.totalBuckets, Linked Offset.some (fun i => (node i).next)
    (block.buckets bucket) (chains bucket) Offset.none
  acyclic : ∀ bucket < index.totalBuckets, (chains bucket).Nodup
  disjoint : ∀ bucket < index.totalBuckets, ∀ other < index.totalBuckets, bucket ≠ other →
    (chains bucket).Disjoint (chains other)
  occupied : ∀ i, block.slots.Occupied i ↔ ∃ bucket < index.totalBuckets, i ∈ chains bucket
  own : ∀ bucket < index.totalBuckets, ∀ i ∈ chains bucket, index.hash (node i).key = bucket

variable {index : Index K B} {capacity : Nat} {order : List Nat} {node : Nat → Node K}
  {chains : Nat → List Nat}

theorem Represents.partition (represents : index.Represents capacity block order node)
    (buckets : 0 < index.totalBuckets) :
    index.Chains block node (index.chainOf node order) where
  read i used := represents.read i ((represents.live i).mpr used)
  linked := represents.chain
  acyclic bucket _ := represents.nodup.filter _
  disjoint bucket _ other _ different i member member' :=
    different ((mem_chainOf.mp member).2.symm.trans (mem_chainOf.mp member').2)
  occupied i := by
    rw [← represents.live]
    constructor
    · intro member
      exact ⟨_, Nat.mod_lt _ buckets, mem_chainOf.mpr ⟨member, rfl⟩⟩
    · rintro ⟨bucket, _, member⟩
      exact (mem_chainOf.mp member).1
  own bucket _ i member := (mem_chainOf.mp member).2

namespace Chains

theorem used (chained : index.Chains block node chains) {bucket i : Nat}
    (bound : bucket < index.totalBuckets) (member : i ∈ chains bucket) :
    block.slots.Occupied i :=
  (chained.occupied i).mpr ⟨bucket, bound, member⟩

theorem length_le (chained : index.Chains block node chains) (wf : block.slots.WellFormed)
    {bucket : Nat} (bound : bucket < index.totalBuckets) :
    (chains bucket).length ≤ block.slots.count := by
  rw [Slots.count, wf.count_eq]
  apply (List.subperm_of_subset (chained.acyclic bucket bound) _).length_le
  intro i member
  exact Slots.mem_occupiedSlots.mpr (chained.used bound member)

/-- A chain that is not empty starts at a slot in use. -/
theorem starts (chained : index.Chains block node chains) {bucket : Nat}
    (bound : bucket < index.totalBuckets) (head : (block.buckets bucket).get = some first) :
    index.readNode block first = some (node first) ∧
      ∃ rest, chains bucket = first :: rest ∧
        Linked Offset.some (fun i => (node i).next) (node first).next rest Offset.none := by
  have linked := chained.linked bucket bound
  cases whole : chains bucket with
  | nil =>
    rw [whole, linked_nil] at linked
    rw [linked, Offset.get_none] at head
    cases head
  | cons i rest =>
    rw [whole, linked_cons] at linked
    obtain ⟨start, linked⟩ := linked
    rw [start, Offset.get_some] at head
    cases head
    exact ⟨chained.read _ (chained.used bound (whole ▸ List.mem_cons_self)), rest, rfl, linked⟩

/-- From the head of a chain every visit ends within it. -/
theorem visit_within (chained : index.Chains block node chains) (wf : block.slots.WellFormed)
    {bucket : Nat} (bound : bucket < index.totalBuckets)
    (head : (block.buckets bucket).get = some first) (done : Node K → Bool) :
    let walk := index.visit block done block.slots.count first (node first)
    walk.Within block.slots ∧ ∃ front last back, chains bucket = front ++ last :: back ∧
      walk.stop = some (last, node last) ∧ (∀ i ∈ front, done (node i) = false) ∧
      (done (node last) = true ∨ back = []) := by
  obtain ⟨_, rest, whole, linked⟩ := chained.starts bound head
  have short := chained.length_le wf bound
  rw [whole, List.length_cons] at short
  have read : ∀ i ∈ rest, index.readNode block i = some (node i) := fun i member =>
    chained.read i (chained.used bound (whole ▸ List.mem_cons_of_mem _ member))
  obtain ⟨front, last, back, split, visited, stopped⟩ :=
    @visit_spec _ _ _ _ block.slots.count first node rest done read linked (by omega)
  rw [visited]
  refine ⟨⟨rfl, ?_, ?_⟩, front, last, back, whole.trans split, rfl, stopped⟩
  · have length := congrArg List.length split
    simp only [List.length_cons, List.length_append, List.length_tail, List.length_nil] at length ⊢
    omega
  · intro i member
    apply chained.used bound
    rw [whole, split]
    have inside := List.mem_of_mem_tail member
    simp only [List.mem_append, List.mem_cons] at inside ⊢
    tauto

/-- A node behind the head has a predecessor in its chain. -/
theorem predecessor (chained : index.Chains block node chains) {bucket : Nat}
    (bound : bucket < index.totalBuckets) (head : (block.buckets bucket).get = some first)
    {removing : Nat} (member : removing ∈ chains bucket) (behind : first ≠ removing) :
    ∃ before ∈ chains bucket, (node before).next.get = some removing := by
  obtain ⟨_, rest, whole, _⟩ := chained.starts bound head
  rw [whole, List.mem_cons] at member
  obtain ⟨pre, post, rfl⟩ := List.append_of_mem (member.resolve_left (Ne.symm behind))
  rcases List.eq_nil_or_concat (first :: pre) with empty | ⟨front, before, last⟩
  · cases empty
  · have split : chains bucket = front ++ before :: removing :: post := by
      rw [whole, ← List.cons_append, last, List.concat_eq_append, List.append_assoc,
        List.singleton_append]
    have linked := chained.linked bucket bound
    rw [split] at linked
    refine ⟨before, by simp [split], ?_⟩
    rw [linked.next_eq, Offset.get_some]

/-- The visit for the predecessor of a node behind the head finds it. -/
theorem visit_predecessor (chained : index.Chains block node chains) (wf : block.slots.WellFormed)
    {bucket : Nat} (bound : bucket < index.totalBuckets)
    (head : (block.buckets bucket).get = some first) {removing : Nat}
    (member : removing ∈ chains bucket) (behind : first ≠ removing) :
    ∃ last, (index.visit block (fun node => node.next.get = some removing) block.slots.count first
      (node first)).stop = some (last, node last) ∧ (node last).next.get = some removing := by
  obtain ⟨_, front, last, back, split, stopped, passed, done⟩ := chained.visit_within wf bound head
    (fun node => node.next.get = some removing)
  refine ⟨last, stopped, ?_⟩
  obtain ⟨before, inside, link⟩ := chained.predecessor bound head member behind
  rcases done with found | rfl
  · exact of_decide_eq_true found
  · rw [split] at inside
    rcases List.mem_append.mp inside with inFront | isLast
    · exact absurd link (of_decide_eq_false (passed before inFront))
    · rwa [List.mem_singleton.mp isLast] at link

end Chains

/-- The three loops on the chain of a key. -/
structure LoopsEnd [DecidableEq K] (index : Index K B) (block : IndexBlock B) (key : K) : Prop where
  head : ∀ first, (block.buckets (index.hash key)).get = some first →
    block.slots.Occupied first ∧ (index.readNode block first).isSome
  insert : ∀ first firstNode, (block.buckets (index.hash key)).get = some first →
    index.readNode block first = some firstNode →
    let walk := index.visit block (fun _ => false) block.slots.count first firstNode
    walk.Within block.slots ∧
      index.walkToLast block block.slots.count first firstNode = walk.stop
  search : ∀ first firstNode, (block.buckets (index.hash key)).get = some first →
    index.readNode block first = some firstNode →
    let walk := index.visit block (fun node => node.key = key) block.slots.count first firstNode
    walk.Within block.slots ∧
      index.walkToKey block key block.slots.count first firstNode =
        walk.stop.map (fun found => if found.2.key = key then some found else none)
  /-- The bucket of a node that was found has a head; behind the head the loop stops at
  the predecessor. -/
  remove : ∀ removing removingNode, index.search block key = some (some (removing, removingNode)) →
    ∃ first firstNode, (block.buckets (index.hash key)).get = some first ∧
      index.readNode block first = some firstNode ∧
      (first ≠ removing →
        let walk := index.visit block (fun node => node.next.get = some removing) block.slots.count
          first firstNode
        walk.Within block.slots ∧ ∃ last lastNode, walk.stop = some (last, lastNode) ∧
          lastNode.next.get = some removing ∧
          index.walkToPredecessor block removing removingNode block.slots.count first firstNode =
            some (index.unlink block removing removingNode last lastNode))

theorem Represents.loopsEnd [DecidableEq K]
    (represents : index.Represents capacity block order node) (buckets : 0 < index.totalBuckets)
    (key : K) : index.LoopsEnd block key := by
  have chained := represents.partition buckets
  have wf := represents.slots.wellFormed
  have bound : index.hash key < index.totalBuckets := Nat.mod_lt _ buckets
  have start : ∀ first, (block.buckets (index.hash key)).get = some first →
      first ∈ index.chainOf node order (index.hash key) := by
    intro first head
    obtain ⟨_, rest, whole, _⟩ := chained.starts bound head
    simp [whole]
  refine ⟨?_, ?_, ?_, ?_⟩
  · intro first head
    exact ⟨chained.used bound (start first head),
      Option.isSome_of_eq_some (chained.starts bound head).1⟩
  · intro first firstNode head read
    obtain rfl := Option.some.inj ((chained.starts bound head).1.symm.trans read)
    exact ⟨(chained.visit_within wf bound head _).1, walkToLast_eq_visit⟩
  · intro first firstNode head read
    obtain rfl := Option.some.inj ((chained.starts bound head).1.symm.trans read)
    exact ⟨(chained.visit_within wf bound head _).1, walkToKey_eq_visit⟩
  · intro removing removingNode found
    rw [represents.search_eq buckets, Option.some.injEq, Option.map_eq_some_iff] at found
    obtain ⟨_, earliest, same⟩ := found
    cases same
    have member : removing ∈ index.chainOf node order (index.hash key) := mem_chainOf.mpr
      ⟨List.mem_of_find?_eq_some earliest, by rw [(find_key earliest).1]⟩
    cases whole : index.chainOf node order (index.hash key) with
    | nil => simp [whole] at member
    | cons first rest =>
      obtain ⟨head, read, _⟩ := represents.chain_head buckets whole
      refine ⟨first, node first, head, read, fun behind => ?_⟩
      obtain ⟨last, stopped, link⟩ := chained.visit_predecessor wf bound head member behind
      refine ⟨(chained.visit_within wf bound head _).1, last, node last, stopped, link, ?_⟩
      rw [walkToPredecessor_eq_visit, stopped, Option.map_some, if_pos link]

/-- Whatever the hash function, after every sequence of calls on a new index the chains
of the buckets are a partition of the slots in use. Every loop therefore ends within as
many rounds as there are nodes and reads slots in use only; a bucket in which a node was
found is not empty, and the loop of `remove` never runs off the end of the chain. -/
theorem run_chains [DecidableEq K] [Inhabited K] (layout : NodeLayout K B) (hasher : K → Nat)
    (capacity : Nat) (memory : Nat → Slot B) (requests : List (IndexCall K))
    (positive : 1 ≤ capacity) :
    ∃ replies block node chains, execute (handle layout hasher capacity).call
        ((handle layout hasher capacity).newBlock capacity memory) requests =
          some (replies, block) ∧
      (handle layout hasher capacity).Chains block node chains ∧
      ∀ key, (handle layout hasher capacity).LoopsEnd block key := by
  have buckets : 0 < (handle layout hasher capacity).totalBuckets := totalBuckets_pos positive
  obtain ⟨replies, block, entries, executed, _, order, node, represents, _⟩ :=
    execute_refines layout hasher capacity memory requests positive
  exact ⟨replies, block, node, _, executed, represents.partition buckets,
    represents.loopsEnd buckets⟩

/-- Three keys of one bucket; the middle one leaves the chain. -/
theorem run_chains_sample :
    ∃ replies block, execute (handle (.cell Nat) id 4).call
        ((handle (.cell Nat) id 4).newBlock 4 (fun _ => ⟨.free, 0, []⟩))
        [.insert 0 7, .insert 3 8, .insert 6 9, .remove 3] = some (replies, block) ∧
      (∃ node chains, (handle (.cell Nat) id 4).Chains block node chains) ∧
      (handle (.cell Nat) id 4).LoopsEnd block 6 := by
  obtain ⟨replies, block, node, chains, executed, chained, ends⟩ :=
    run_chains (.cell Nat) id 4 (fun _ => ⟨.free, 0, []⟩)
      [.insert 0 7, .insert 3 8, .insert 6 9, .remove 3] (by decide)
  exact ⟨replies, block, executed, ⟨node, chains, chained⟩, ends 6⟩

end Index
end InMemoryTable
