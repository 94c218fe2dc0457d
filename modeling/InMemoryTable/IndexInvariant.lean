import InMemoryTable.IndexWalks
import InMemoryTable.Library.FifoMultimap
import InMemoryTable.SlotsRun

/-! The index as a first-in-first-out multimap. The invariant names the nodes in
use in insertion order; the chain of a bucket is the part of that order whose
keys hash to the bucket. -/
namespace InMemoryTable
namespace Index
open Chain
variable {K B : Type} {index : Index K B} {block after : IndexBlock B} {capacity : Nat}
  {order : List Nat} {node : Nat → Node K}

/-- The nodes of one bucket, in insertion order. -/
def chainOf (index : Index K B) (node : Nat → Node K) (order : List Nat) (bucket : Nat) : List Nat :=
  order.filter (fun i => index.hash (node i).key = bucket)

structure Represents (index : Index K B) (capacity : Nat) (block : IndexBlock B)
    (order : List Nat) (node : Nat → Node K) : Prop where
  slots : Slots.Sized capacity index.layout.size block.slots
  nodup : order.Nodup
  live : ∀ i, i ∈ order ↔ block.slots.Occupied i
  read : ∀ i ∈ order, index.readNode block i = some (node i)
  chain : ∀ bucket < index.totalBuckets, Linked Offset.some (fun i => (node i).next)
    (block.buckets bucket) (index.chainOf node order bucket) Offset.none

def entryOf (node : Nat → Node K) (i : Nat) : K × Nat := ((node i).key, (node i).position)

/-- The block represents the entries, oldest first. -/
def Refines (index : Index K B) (capacity : Nat) (block : IndexBlock B)
    (entries : List (K × Nat)) : Prop :=
  ∃ order node, index.Represents capacity block order node ∧ entries = order.map (entryOf node)

theorem Represents.length_eq (represents : index.Represents capacity block order node) :
    order.length = block.slots.header.count :=
  represents.slots.wellFormed.count_of_members represents.nodup represents.live

theorem Represents.length_le (represents : index.Represents capacity block order node) :
    order.length ≤ capacity := by
  rw [represents.length_eq, ← represents.slots.capacity]
  exact represents.slots.wellFormed.count_le

theorem Refines.length_eq {entries : List (K × Nat)} (refines : index.Refines capacity block entries) :
    entries.length = block.slots.header.count := by
  obtain ⟨order, node, represents, rfl⟩ := refines
  rw [List.length_map, represents.length_eq]

theorem Refines.length_le {entries : List (K × Nat)} (refines : index.Refines capacity block entries) :
    entries.length ≤ capacity := by
  obtain ⟨order, node, represents, rfl⟩ := refines
  rw [List.length_map]
  exact represents.length_le

/-- No two nodes in use carry the same key. -/
def UniqueKeys (index : Index K B) (block : IndexBlock B) : Prop :=
  ∀ {i j first second}, block.slots.Occupied i → block.slots.Occupied j →
    index.readNode block i = some first → index.readNode block j = some second →
    first.key = second.key → i = j

theorem Refines.uniqueKeys_iff {entries : List (K × Nat)}
    (refines : index.Refines capacity block entries) :
    index.UniqueKeys block ↔ (entries.map Prod.fst).Nodup := by
  obtain ⟨order, node, represents, rfl⟩ := refines
  rw [List.map_map, List.nodup_map_iff_inj_on represents.nodup]
  constructor
  · intro unique i member j member' same
    exact unique ((represents.live i).mp member) ((represents.live j).mp member')
      (represents.read i member) (represents.read j member') same
  · intro injective i j first second used used' readFirst readSecond same
    have member := (represents.live i).mpr used
    have member' := (represents.live j).mpr used'
    cases (represents.read i member).symm.trans readFirst
    cases (represents.read j member').symm.trans readSecond
    exact injective i member j member' same

theorem mem_chainOf {bucket i : Nat} :
    i ∈ index.chainOf node order bucket ↔ i ∈ order ∧ index.hash (node i).key = bucket := by
  simp [chainOf]

theorem chainOf_length_le (index : Index K B) (node : Nat → Node K) (order : List Nat)
    (bucket : Nat) : (index.chainOf node order bucket).length ≤ order.length :=
  List.length_filter_le ..

theorem chainOf_append (index : Index K B) (node : Nat → Node K) (xs ys : List Nat) (bucket : Nat) :
    index.chainOf node (xs ++ ys) bucket =
      index.chainOf node xs bucket ++ index.chainOf node ys bucket :=
  List.filter_append ..

theorem chainOf_congr {other : Nat → Node K} (same : ∀ i ∈ order, (other i).key = (node i).key)
    (bucket : Nat) : index.chainOf other order bucket = index.chainOf node order bucket := by
  apply List.filter_congr
  intro i member
  rw [same i member]

theorem readNode_congr {i : Nat} (same : after.slots.slot i = block.slots.slot i) :
    index.readNode after i = index.readNode block i := by
  simp only [readNode, Slots.get_congr same]

theorem readNode_of_stored {i : Nat} {written : Node K}
    (stored : block.slots.get i = index.layout.toBytes written) :
    index.readNode block i = some written := by
  rw [readNode, stored, index.layout.ofBytes_toBytes]

theorem newBlock_refines [Nonempty K] (index : Index K B) (capacity : Nat)
    (memory : Nat → Slot B) : index.Refines capacity (index.newBlock capacity memory) [] := by
  have sized : Slots.Sized capacity index.layout.size (index.newBlock capacity memory).slots :=
    Slots.new_sized memory capacity index.layout.small
  obtain ⟨key⟩ := ‹Nonempty K›
  refine ⟨[], fun _ => ⟨key, 0, Offset.none⟩, ⟨sized, List.nodup_nil, ?_, by simp, ?_⟩, rfl⟩
  · intro i
    apply iff_of_false List.not_mem_nil
    rintro ⟨bound, occupied⟩
    rw [sized.capacity] at bound
    change ((Slots.new memory capacity index.layout.size).slot i).state = _ at occupied
    rw [Slots.new_slot _ _ _ _ bound] at occupied
    contradiction
  · intro bucket _
    rfl

/-! ### Insertion -/

/-- A new entry at the node `new`: the chain of its bucket grows at the end, the
other nodes keep their entries and their links within other buckets. -/
theorem Represents.extend (represents : index.Represents capacity block order node) {new : Nat}
    {node' : Nat → Node K} (sized : Slots.Sized capacity index.layout.size after.slots)
    (wasFree : ¬ block.slots.Occupied new)
    (live : ∀ i, after.slots.Occupied i ↔ block.slots.Occupied i ∨ i = new)
    (keys : ∀ i ∈ order, (node' i).key = (node i).key)
    (read : ∀ i, i ∈ order ∨ i = new → index.readNode after i = some (node' i))
    (others : ∀ bucket, bucket ≠ index.hash (node' new).key →
      after.buckets bucket = block.buckets bucket ∧
        ∀ i ∈ index.chainOf node order bucket, (node' i).next = (node i).next)
    (linked : Linked Offset.some (fun i => (node' i).next)
      (after.buckets (index.hash (node' new).key))
      (index.chainOf node order (index.hash (node' new).key) ++ [new]) Offset.none) :
    index.Represents capacity after (order ++ [new]) node' := by
  have outside : new ∉ order := fun member => wasFree ((represents.live new).mp member)
  refine ⟨sized, ?_, ?_, ?_, ?_⟩
  · exact List.nodup_append.mpr ⟨represents.nodup, List.nodup_singleton _, by
      rintro i member j new' rfl
      exact outside (List.mem_singleton.mp new' ▸ member)⟩
  · intro i
    rw [live, List.mem_append, List.mem_singleton, represents.live]
  · intro i member
    exact read i (by simpa using member)
  · intro bucket bound
    rw [chainOf_append, chainOf_congr keys]
    by_cases mine : bucket = index.hash (node' new).key
    · subst mine
      simpa [chainOf] using linked
    · obtain ⟨head, links⟩ := others bucket mine
      have alone : index.chainOf node' [new] bucket = [] := by simp [chainOf, Ne.symm mine]
      rw [alone, List.append_nil, head]
      exact (represents.chain bucket bound).congr links

theorem entries_append (node : Nat → Node K) {node' : Nat → Node K} {new : Nat}
    (same : ∀ i ∈ order, entryOf node' i = entryOf node i) :
    (order ++ [new]).map (entryOf node') = order.map (entryOf node) ++ [entryOf node' new] := by
  rw [List.map_append, List.map_congr_left same]
  rfl

theorem insertNode_cases (sized : Slots.Sized capacity index.layout.size block.slots)
    (written : Node K) :
    (capacity ≤ block.slots.header.count ∧ index.insertNode block written =
      (.error (.tableFull block.slots.header.count capacity), block)) ∨
    (block.slots.header.count < capacity ∧ ∃ new slots,
      index.insertNode block written = (.ok new, { block with slots }) ∧
      Slots.Inserted block.slots new (index.layout.toBytes written) slots) := by
  simp only [insertNode]
  obtain ⟨full, same⟩ | ⟨_, big, _⟩ | ⟨room, _, new, slots, same, inserted⟩ :=
    sized.insert_cases (index.layout.toBytes written)
  · exact .inl ⟨full, by rw [same]⟩
  · rw [index.layout.length_toBytes] at big
    omega
  · exact .inr ⟨room, new, slots, by rw [same], inserted⟩

theorem updateNode_ok (index : Index K B) (block : IndexBlock B)
    (sized : Slots.Sized capacity index.layout.size block.slots) {i : Nat}
    (occupied : block.slots.Occupied i) (written : Node K) :
    ∃ slots, index.updateNode block i written = (.ok (), { block with slots }) ∧
      Slots.Updated block.slots i (index.layout.toBytes written) slots := by
  simp only [updateNode]
  obtain ⟨big, _⟩ | ⟨_, slots, same, updated⟩ :=
    sized.update_cases occupied (index.layout.toBytes written)
  · rw [index.layout.length_toBytes] at big
    omega
  · exact ⟨slots, by rw [same], updated⟩

theorem Represents.chain_head (represents : index.Represents capacity block order node) {key : K}
    {first : Nat} {rest : List Nat} (buckets : 0 < index.totalBuckets)
    (split : index.chainOf node order (index.hash key) = first :: rest) :
    (block.buckets (index.hash key)).get = some first ∧
      index.readNode block first = some (node first) ∧
      (∀ i ∈ rest, index.readNode block i = some (node i)) ∧
      Linked Offset.some (fun i => (node i).next) (node first).next rest Offset.none ∧
      rest.length < block.slots.header.capacity := by
  have linked := represents.chain (index.hash key) (Nat.mod_lt _ buckets)
  have members : ∀ i ∈ first :: rest, i ∈ order := by
    intro i member
    rw [← split] at member
    exact (mem_chainOf.mp member).1
  have short : (first :: rest).length ≤ order.length :=
    split ▸ chainOf_length_le index node order (index.hash key)
  rw [split] at linked
  obtain ⟨head, linked⟩ := linked
  refine ⟨by rw [head, Offset.get_some], represents.read first (members first List.mem_cons_self),
    fun i hi => represents.read i (members i (List.mem_cons_of_mem _ hi)), linked, ?_⟩
  have := represents.length_le
  rw [represents.slots.capacity]
  simp only [List.length_cons] at short
  omega

theorem Represents.insert_of_empty (represents : index.Represents capacity block order node)
    {key : K} {position new : Nat} (buckets : 0 < index.totalBuckets)
    (empty : index.chainOf node order (index.hash key) = [])
    (written : index.insertNode block ⟨key, position, Offset.none⟩ = (.ok new, after)) :
    index.insert block key position =
      some (.ok (), setBucket after (index.hash key) (Offset.some new)) := by
  have linked := represents.chain (index.hash key) (Nat.mod_lt _ buckets)
  rw [empty] at linked
  have head : block.buckets (index.hash key) = Offset.none := linked
  simp only [insert, head, Offset.get_none, written]

theorem Represents.walk_last (represents : index.Represents capacity block order node) {key : K}
    (buckets : 0 < index.totalBuckets) {front : List Nat} {last : Nat}
    (split : index.chainOf node order (index.hash key) = front ++ [last]) :
    ∃ first, (block.buckets (index.hash key)).get = some first ∧
      index.readNode block first = some (node first) ∧
      index.walkToLast block block.slots.header.capacity first (node first) =
        some (last, node last) := by
  cases whole : index.chainOf node order (index.hash key) with
  | nil => simp [whole] at split
  | cons first rest =>
    obtain ⟨head, readFirst, read, linked, enough⟩ := represents.chain_head buckets whole
    exact ⟨first, head, readFirst, walkToLast_spec read linked enough (whole.symm.trans split)⟩

theorem Represents.insert_behind (represents : index.Represents capacity block order node)
    {key : K} {position new : Nat} (buckets : 0 < index.totalBuckets) {front : List Nat}
    {last : Nat} (split : index.chainOf node order (index.hash key) = front ++ [last])
    (written : index.insertNode block ⟨key, position, Offset.none⟩ = (.ok new, after)) :
    index.insert block key position =
      some (index.updateNode after last { node last with next := Offset.some new }) := by
  obtain ⟨first, head, readFirst, walked⟩ := represents.walk_last buckets split
  simp only [insert, head, readFirst, bind, Option.bind_some, walked, written]

theorem Represents.insert_error (represents : index.Represents capacity block order node)
    {key : K} {position : Nat} {e : InMemoryTableError} (buckets : 0 < index.totalBuckets)
    (written : index.insertNode block ⟨key, position, Offset.none⟩ = (.error e, after)) :
    index.insert block key position = some (.error e, after) := by
  rcases List.eq_nil_or_concat (index.chainOf node order (index.hash key)) with
    empty | ⟨front, last, split⟩
  · have linked := represents.chain (index.hash key) (Nat.mod_lt _ buckets)
    rw [empty] at linked
    have head : block.buckets (index.hash key) = Offset.none := linked
    simp only [insert, head, Offset.get_none, written]
  · rw [List.concat_eq_append] at split
    obtain ⟨first, head, readFirst, walked⟩ := represents.walk_last buckets split
    simp only [insert, head, readFirst, bind, Option.bind_some, walked, written]

/-- A node is filled in that was none before. -/
theorem Represents.apart (represents : index.Represents capacity block order node) {new : Nat}
    {bytes : List B} {slots : Slots B} (inserted : Slots.Inserted block.slots new bytes slots) :
    ¬ block.slots.Occupied new ∧ ∀ i ∈ order, i ≠ new := by
  have wasFree : ¬ block.slots.Occupied new := fun used => used.not_free inserted.wasFree
  refine ⟨wasFree, ?_⟩
  rintro i member rfl
  exact wasFree ((represents.live i).mp member)

theorem Represents.insert_empty_bucket (represents : index.Represents capacity block order node)
    {key : K} (position : Nat) {new : Nat} {slots : Slots B}
    (empty : index.chainOf node order (index.hash key) = [])
    (inserted : Slots.Inserted block.slots new
      (index.layout.toBytes ⟨key, position, Offset.none⟩) slots) :
    index.Represents capacity
      (setBucket { block with slots } (index.hash key) (Offset.some new)) (order ++ [new])
      (Function.update node new ⟨key, position, Offset.none⟩) := by
  obtain ⟨wasFree, apart⟩ := represents.apart inserted
  have kept : ∀ i ∈ order, Function.update node new ⟨key, position, Offset.none⟩ i = node i :=
    fun i member => Function.update_of_ne (apart i member) ..
  refine represents.extend (inserted.sized represents.slots) wasFree ?_ ?_ ?_ ?_ ?_
  · intro i
    exact inserted.occupied_iff
  · intro i member
    rw [kept i member]
  · rintro i (member | rfl)
    · rw [kept i member, ← represents.read i member]
      exact readNode_congr (inserted.others i (apart i member))
    · rw [Function.update_self]
      exact readNode_of_stored inserted.stored
  · intro bucket different
    rw [Function.update_self] at different
    refine ⟨Function.update_of_ne different .., fun i member => ?_⟩
    rw [kept i (mem_chainOf.mp member).1]
  · rw [Function.update_self, empty]
    exact ⟨Function.update_self .., by simp⟩

theorem Represents.insert_after_last (represents : index.Represents capacity block order node)
    {key : K} (position : Nat) {new last : Nat} {front : List Nat} {slots slots' : Slots B}
    (buckets : 0 < index.totalBuckets)
    (split : index.chainOf node order (index.hash key) = front ++ [last])
    (inserted : Slots.Inserted block.slots new
      (index.layout.toBytes ⟨key, position, Offset.none⟩) slots)
    (updated : Slots.Updated slots last
      (index.layout.toBytes { node last with next := Offset.some new }) slots') :
    index.Represents capacity { block with slots := slots' } (order ++ [new])
      (Function.update (Function.update node new ⟨key, position, Offset.none⟩) last
        { node last with next := Offset.some new }) := by
  obtain ⟨wasFree, apart⟩ := represents.apart inserted
  have nodup : (front ++ [last]).Nodup := split ▸ represents.nodup.filter _
  have lastIn : last ∈ index.chainOf node order (index.hash key) := by simp [split]
  obtain ⟨lastLive, lastHash⟩ := mem_chainOf.mp lastIn
  have lastOutside : last ∉ front := by
    intro member
    exact (List.nodup_append.mp nodup).2.2 last member last (List.mem_singleton_self _) rfl
  generalize same : Function.update (Function.update node new ⟨key, position, Offset.none⟩) last
    { node last with next := Offset.some new } = node'
  have atLast : node' last = { node last with next := Offset.some new } := by
    rw [← same, Function.update_self]
  have atNew : node' new = ⟨key, position, Offset.none⟩ := by
    rw [← same, Function.update_of_ne (apart last lastLive).symm, Function.update_self]
  have kept : ∀ i ∈ order, i ≠ last → node' i = node i := by
    intro i member different
    rw [← same, Function.update_of_ne different, Function.update_of_ne (apart i member)]
  refine represents.extend (updated.sized (inserted.sized represents.slots)) wasFree ?_ ?_ ?_ ?_ ?_
  · intro i
    exact (updated.occupied_iff (inserted.occupied_iff.mpr
      (.inl ((represents.live last).mp lastLive)))).trans inserted.occupied_iff
  · intro i member
    by_cases mine : i = last
    · rw [mine, atLast]
    · rw [kept i member mine]
  · rintro i (member | rfl)
    · by_cases mine : i = last
      · subst mine
        rw [atLast]
        exact readNode_of_stored updated.stored
      · rw [kept i member mine, ← represents.read i member]
        exact readNode_congr
          ((updated.others i mine).trans (inserted.others i (apart i member)))
    · rw [atNew]
      refine readNode_of_stored ((Slots.get_congr ?_).trans inserted.stored)
      exact updated.others i (apart last lastLive).symm
  · intro bucket different
    rw [atNew] at different
    refine ⟨rfl, fun i member => ?_⟩
    obtain ⟨live, hashed⟩ := mem_chainOf.mp member
    rw [kept i live]
    rintro rfl
    exact different (hashed.symm.trans lastHash)
  · rw [atNew]
    have linked := represents.chain (index.hash key) (Nat.mod_lt _ buckets)
    change Linked _ _ _ (index.chainOf node order (index.hash key) ++ [new]) _
    rw [split] at linked ⊢
    rw [List.append_assoc]
    apply linked.append_last (by rw [atLast]) (by rw [atNew])
    intro i member
    have inChain : i ∈ index.chainOf node order (index.hash key) := by simp [split, member]
    rw [kept i (mem_chainOf.mp inChain).1 (ne_of_mem_of_not_mem member lastOutside)]

/-- Insertion into an index with a free slot: the new node goes to the slot that
the store hands out, behind the last node of its bucket. -/
theorem Represents.insert_ok (represents : index.Represents capacity block order node)
    (buckets : 0 < index.totalBuckets) (key : K) (position : Nat)
    (room : block.slots.header.count < capacity) :
    ∃ new slots after node',
      block.slots.insert (index.layout.toBytes ⟨key, position, Offset.none⟩) = (.ok new, slots) ∧
      Slots.SameFree slots after.slots ∧
      index.insert block key position = some (.ok (), after) ∧
      index.Represents capacity after (order ++ [new]) node' ∧
      (∀ i ∈ order, entryOf node' i = entryOf node i) ∧ entryOf node' new = (key, position) := by
  obtain ⟨full, _⟩ | ⟨_, new, slots, written, inserted⟩ :=
    insertNode_cases represents.slots ⟨key, position, Offset.none⟩
  · omega
  have stored : block.slots.insert (index.layout.toBytes ⟨key, position, Offset.none⟩) =
      (.ok new, slots) := by
    simp only [insertNode, Prod.mk.injEq, IndexBlock.mk.injEq, true_and] at written
    exact Prod.ext written.1 written.2
  have apart : ∀ i ∈ order, i ≠ new := by
    rintro i member rfl
    exact ((represents.live i).mp member).not_free inserted.wasFree
  rcases List.eq_nil_or_concat (index.chainOf node order (index.hash key)) with
    empty | ⟨front, last, split⟩
  · refine ⟨new, slots, _, _, stored, .refl _, represents.insert_of_empty buckets empty written,
      represents.insert_empty_bucket position empty inserted, fun i member => ?_, ?_⟩
    · rw [entryOf, Function.update_of_ne (apart i member)]
      rfl
    · rw [entryOf, Function.update_self]
  · rw [List.concat_eq_append] at split
    have lastLive : last ∈ order := by
      have member : last ∈ index.chainOf node order (index.hash key) := by simp [split]
      exact (mem_chainOf.mp member).1
    have used : slots.Occupied last :=
      inserted.occupied_iff.mpr (.inl ((represents.live last).mp lastLive))
    obtain ⟨slots', rewritten, updated⟩ := updateNode_ok index { block with slots }
      (inserted.sized represents.slots) used { node last with next := Offset.some new }
    have inserts : index.insert block key position =
        some (.ok (), { block with slots := slots' }) := by
      rw [represents.insert_behind buckets split written]
      exact congrArg some rewritten
    refine ⟨new, slots, _, _, stored, updated.sameFree used, inserts,
      represents.insert_after_last position buckets split inserted updated, fun i member => ?_, ?_⟩
    · by_cases same : i = last
      · subst same
        rw [entryOf, Function.update_self]
        rfl
      · rw [entryOf, Function.update_of_ne same, Function.update_of_ne (apart i member)]
        rfl
    · rw [entryOf, Function.update_of_ne (apart last lastLive).symm, Function.update_self]

theorem Refines.insert_ok {entries : List (K × Nat)} (refines : index.Refines capacity block entries)
    (buckets : 0 < index.totalBuckets) (key : K) (position : Nat)
    (room : entries.length < capacity) :
    ∃ after, index.insert block key position = some (.ok (), after) ∧
      index.Refines capacity after (entries ++ [(key, position)]) := by
  rw [refines.length_eq] at room
  obtain ⟨order, node, represents, rfl⟩ := refines
  obtain ⟨new, slots, after, node', _, _, inserts, represented, same, fresh⟩ :=
    represents.insert_ok buckets key position room
  refine ⟨after, inserts, order ++ [new], node', represented, ?_⟩
  rw [entries_append node same, fresh]

theorem Refines.insert_full {entries : List (K × Nat)} (refines : index.Refines capacity block entries)
    (buckets : 0 < index.totalBuckets) (key : K) (position : Nat)
    (full : capacity ≤ entries.length) :
    index.insert block key position = some (.error (.tableFull capacity capacity), block) := by
  have exact : block.slots.header.count = capacity := by
    have := refines.length_le
    rw [← refines.length_eq]
    omega
  obtain ⟨order, node, represents, rfl⟩ := refines
  obtain ⟨_, written⟩ | ⟨room, _⟩ :=
    insertNode_cases represents.slots ⟨key, position, Offset.none⟩
  · rw [exact] at written
    exact represents.insert_error buckets written
  · omega

/-! ### Lookup -/

section Lookup
variable [DecidableEq K]

/-- The earliest node of a key stands in the chain of its bucket. -/
theorem find_chainOf (index : Index K B) (key : K) :
    (index.chainOf node order (index.hash key)).find? (fun i => (node i).key = key) =
      order.find? (fun i => (node i).key = key) := by
  rw [chainOf, List.find?_filter]
  congr 1
  funext i
  by_cases same : (node i).key = key
  · simp [same]
  · simp [same]

theorem Represents.search_eq (represents : index.Represents capacity block order node)
    (buckets : 0 < index.totalBuckets) (key : K) :
    index.search block key =
      some ((order.find? (fun i => (node i).key = key)).map (fun i => (i, node i))) := by
  rw [← find_chainOf index]
  cases whole : index.chainOf node order (index.hash key) with
  | nil =>
    have linked := represents.chain (index.hash key) (Nat.mod_lt _ buckets)
    rw [whole] at linked
    have head : block.buckets (index.hash key) = Offset.none := linked
    simp only [search, head, Offset.get_none, List.find?_nil, Option.map_none]
  | cons first rest =>
    obtain ⟨head, readFirst, read, linked, enough⟩ := represents.chain_head buckets whole
    simp only [search, head, readFirst, bind, Option.bind_some]
    exact walkToKey_spec key read linked enough

theorem get_entries (key : K) :
    FifoMultimap.get (order.map (entryOf node)) key =
      (order.find? (fun i => (node i).key = key)).map (fun i => (node i).position) := by
  rw [FifoMultimap.get, List.find?_map, Option.map_map]
  rfl

theorem Refines.get_eq {entries : List (K × Nat)} (refines : index.Refines capacity block entries)
    (buckets : 0 < index.totalBuckets) (key : K) :
    index.get block key = some (FifoMultimap.get entries key) := by
  obtain ⟨order, node, represents, rfl⟩ := refines
  rw [get, represents.search_eq buckets, get_entries, Option.map_some, Option.map_map]
  rfl

end Lookup

/-! ### Removal -/

theorem Represents.remove_first_live (represents : index.Represents capacity block order node)
    {pre post : List Nat} {removing : Nat} (split : order = pre ++ removing :: post) :
    (pre ++ post).Nodup ∧ (∀ i ∈ pre ++ post, i ≠ removing) ∧
      ∀ i, i ∈ pre ++ post ↔ block.slots.Occupied i ∧ i ≠ removing := by
  have nodup := represents.nodup
  rw [split] at nodup
  have perm : (pre ++ removing :: post).Perm (removing :: (pre ++ post)) := List.perm_middle
  obtain ⟨outside, rest⟩ := List.nodup_cons.mp (perm.nodup_iff.mp nodup)
  refine ⟨rest, fun i member same => outside (same ▸ member), fun i => ?_⟩
  rw [← represents.live, split, perm.mem_iff, List.mem_cons]
  constructor
  · intro member
    exact ⟨.inr member, fun same => outside (same ▸ member)⟩
  · rintro ⟨rfl | member, different⟩
    · exact absurd rfl different
    · exact member

/-- One entry less: the chain of its bucket loses the node, the other nodes
keep their entries and their links within other buckets. -/
theorem Represents.shrink (represents : index.Represents capacity block order node)
    {pre post : List Nat} {removing : Nat} (split : order = pre ++ removing :: post)
    {node' : Nat → Node K} (sized : Slots.Sized capacity index.layout.size after.slots)
    (live : ∀ i, after.slots.Occupied i ↔ block.slots.Occupied i ∧ i ≠ removing)
    (keys : ∀ i, (node' i).key = (node i).key)
    (read : ∀ i ∈ pre ++ post, index.readNode after i = some (node' i))
    (others : ∀ bucket, bucket ≠ index.hash (node removing).key →
      after.buckets bucket = block.buckets bucket ∧
        ∀ i ∈ index.chainOf node order bucket, (node' i).next = (node i).next)
    (linked : Linked Offset.some (fun i => (node' i).next)
      (after.buckets (index.hash (node removing).key))
      (index.chainOf node (pre ++ post) (index.hash (node removing).key)) Offset.none) :
    index.Represents capacity after (pre ++ post) node' := by
  obtain ⟨nodup, _, members⟩ := represents.remove_first_live split
  refine ⟨sized, nodup, fun i => (members i).trans (live i).symm, read, fun bucket bound => ?_⟩
  rw [chainOf_congr (fun i _ => keys i)]
  by_cases mine : bucket = index.hash (node removing).key
  · subst mine
    exact linked
  · obtain ⟨head, links⟩ := others bucket mine
    have whole : index.chainOf node order bucket = index.chainOf node (pre ++ post) bucket := by
      rw [split, chainOf_append, chainOf_append]
      simp [chainOf, Ne.symm mine]
    rw [head]
    rw [whole] at links
    exact (whole ▸ represents.chain bucket bound).congr links

theorem Represents.remove_head (represents : index.Represents capacity block order node)
    {pre post chained : List Nat} {removing : Nat} (split : order = pre ++ removing :: post)
    (bound : index.hash (node removing).key < index.totalBuckets)
    (whole : index.chainOf node order (index.hash (node removing).key) = removing :: chained)
    (rest : index.chainOf node (pre ++ post) (index.hash (node removing).key) = chained) :
    index.Represents capacity
      (removeNode (setBucket block (index.hash (node removing).key) (node removing).next) removing)
      (pre ++ post) node := by
  have occupied : block.slots.Occupied removing := (represents.live removing).mp (by simp [split])
  have removed := represents.slots.wellFormed.remove_ok occupied
  obtain ⟨_, apart, _⟩ := represents.remove_first_live split
  refine represents.shrink split (removed.sized represents.slots) (fun i => removed.occupied_iff)
    (fun _ => rfl) ?_ (fun bucket different => ⟨Function.update_of_ne different .., fun _ _ => rfl⟩) ?_
  · intro i member
    rw [← represents.read i (by rw [split]; simp at member ⊢; tauto)]
    exact readNode_congr (removed.others i (apart i member))
  · have linked := represents.chain _ bound
    rw [whole] at linked
    rw [rest]
    change Linked _ _ (Function.update block.buckets _ _ _) _ _
    rw [Function.update_self]
    exact linked.2

theorem Represents.remove_inner (represents : index.Represents capacity block order node)
    {pre post front back : List Nat} {removing before : Nat}
    (split : order = pre ++ removing :: post)
    (bound : index.hash (node removing).key < index.totalBuckets)
    (whole : index.chainOf node order (index.hash (node removing).key) =
      front ++ before :: removing :: back)
    (rest : index.chainOf node (pre ++ post) (index.hash (node removing).key) =
      front ++ before :: back)
    {slots : Slots B} (updated : Slots.Updated block.slots before
      (index.layout.toBytes { node before with next := (node removing).next }) slots) :
    index.Represents capacity (removeNode { block with slots } removing) (pre ++ post)
      (Function.update node before { node before with next := (node removing).next }) := by
  obtain ⟨_, apart, members⟩ := represents.remove_first_live split
  have beforeIn : before ∈ pre ++ post := by
    have member : before ∈ index.chainOf node (pre ++ post) (index.hash (node removing).key) := by
      simp [rest]
    exact (mem_chainOf.mp member).1
  have used : slots.Occupied removing := (updated.occupied_iff ((members before).mp beforeIn).1).mpr
    ((represents.live removing).mp (by simp [split]))
  have removed := updated.wellFormed.remove_ok used
  have nodup : (front ++ before :: removing :: back).Nodup := whole ▸ represents.nodup.filter _
  have once : before ∉ front ∧ before ∉ back := by
    have perm : (front ++ before :: removing :: back).Perm (before :: (front ++ removing :: back)) :=
      List.perm_middle
    have := (List.nodup_cons.mp (perm.nodup_iff.mp nodup)).1
    simp only [List.mem_append, List.mem_cons, not_or] at this
    exact ⟨this.1, this.2.2⟩
  have kept : ∀ i, i ≠ before → Function.update node before
      { node before with next := (node removing).next } i = node i :=
    fun i different => Function.update_of_ne different ..
  refine represents.shrink split (removed.sized (updated.sized represents.slots)) ?_ ?_ ?_ ?_ ?_
  · intro i
    exact removed.occupied_iff.trans
      (and_congr_left' (updated.occupied_iff ((members before).mp beforeIn).1))
  · intro i
    by_cases same : i = before
    · subst same
      rw [Function.update_self]
    · rw [kept i same]
  · intro i member
    have moved : index.readNode (removeNode { block with slots } removing) i =
        index.readNode { block with slots } i := readNode_congr (removed.others i (apart i member))
    rw [moved]
    by_cases same : i = before
    · subst same
      rw [Function.update_self]
      exact readNode_of_stored updated.stored
    · rw [kept i same, ← represents.read i (by rw [split]; simp at member ⊢; tauto)]
      exact readNode_congr (updated.others i same)
  · intro bucket different
    refine ⟨rfl, fun i member => ?_⟩
    rw [kept]
    rintro rfl
    have inBucket : i ∈ index.chainOf node order (index.hash (node removing).key) := by
      simp [whole]
    exact different ((mem_chainOf.mp member).2.symm.trans (mem_chainOf.mp inBucket).2)
  · have linked := represents.chain _ bound
    rw [whole] at linked
    rw [rest]
    apply linked.unlink (by rw [Function.update_self])
    intro i member
    rw [kept]
    rintro rfl
    rcases List.mem_append.mp member with inFront | inBack
    · exact once.1 inFront
    · exact once.2 inBack

section Remove
variable [DecidableEq K]

theorem remove_entries {pre post : List Nat} {removing : Nat} {key : K}
    (first : ∀ i ∈ pre, (node i).key ≠ key) (found : (node removing).key = key) :
    FifoMultimap.remove ((pre ++ removing :: post).map (entryOf node)) key =
      (pre ++ post).map (entryOf node) := by
  induction pre with
  | nil => simp [FifoMultimap.remove, entryOf, found]
  | cons i rest ih =>
    have tail := ih (fun j member => first j (List.mem_cons_of_mem _ member))
    simp only [List.cons_append, List.map_cons] at tail ⊢
    have other : (entryOf node i).1 ≠ key := first i List.mem_cons_self
    rw [FifoMultimap.remove_cons, if_neg other, tail]

/-- Removal of a key that is present: its earliest node leaves the chain of its
bucket, and its slot is given back to the store. -/
theorem Represents.remove_ok (represents : index.Represents capacity block order node)
    (buckets : 0 < index.totalBuckets) {pre post : List Nat} {removing : Nat}
    (split : order = pre ++ removing :: post)
    (first : ∀ i ∈ pre, (node i).key ≠ (node removing).key) :
    ∃ slots after node', Slots.SameFree block.slots slots ∧ after.slots = slots.remove removing ∧
      index.remove block (node removing).key = some (.ok (), after) ∧
      index.Represents capacity after (pre ++ post) node' ∧
      ∀ i, entryOf node' i = entryOf node i := by
  have search := represents.search_eq buckets (node removing).key
  have earliest : order.find? (fun i => (node i).key = (node removing).key) = some removing := by
    rw [split, List.find?_append, List.find?_eq_none.mpr (by simpa using first)]
    simp
  rw [earliest, Option.map_some] at search
  have bound : index.hash (node removing).key < index.totalBuckets := Nat.mod_lt _ buckets
  have whole : index.chainOf node order (index.hash (node removing).key) =
      index.chainOf node pre (index.hash (node removing).key) ++
        removing :: index.chainOf node post (index.hash (node removing).key) := by
    rw [split, chainOf_append]
    simp [chainOf]
  have rest : index.chainOf node (pre ++ post) (index.hash (node removing).key) =
      index.chainOf node pre (index.hash (node removing).key) ++
        index.chainOf node post (index.hash (node removing).key) := chainOf_append ..
  rcases List.eq_nil_or_concat (index.chainOf node pre (index.hash (node removing).key)) with
    empty | ⟨front, before, last⟩
  · rw [empty, List.nil_append] at whole rest
    obtain ⟨head, _⟩ := represents.chain_head buckets whole
    exact ⟨_, _, node, .refl _, rfl,
      by simp only [remove, search, bind, Option.bind_some, head, if_true],
      represents.remove_head split bound whole rest, fun _ => rfl⟩
  · rw [List.concat_eq_append] at last
    rw [last, List.append_assoc, List.singleton_append] at whole rest
    have occupied : block.slots.Occupied before := by
      have member : before ∈ index.chainOf node order (index.hash (node removing).key) := by
        simp [whole]
      exact (represents.live before).mp (mem_chainOf.mp member).1
    obtain ⟨slots, written, updated⟩ := updateNode_ok index block represents.slots occupied
      { node before with next := (node removing).next }
    have removes : index.remove block (node removing).key =
        some (.ok (), removeNode { block with slots } removing) := by
      have nodup : (front ++ before :: removing ::
          index.chainOf node post (index.hash (node removing).key)).Nodup :=
        whole ▸ represents.nodup.filter _
      cases chained : index.chainOf node order (index.hash (node removing).key) with
      | nil => simp [chained] at whole
      | cons head tail =>
        obtain ⟨start, readHead, read, linked, enough⟩ := represents.chain_head buckets chained
        have other : head ≠ removing := by
          rintro rfl
          have inPre : head ∈ index.chainOf node pre (index.hash (node head).key) := by
            rw [last]
            cases front <;> simp_all
          exact first head (mem_chainOf.mp inPre).1 rfl
        have once : removing ∉ front ∧ before ≠ removing := by
          simp only [List.nodup_append, List.nodup_cons, List.mem_cons, not_or] at nodup
          exact ⟨fun member => nodup.2.2 removing member removing (.inr (.inl rfl)) rfl,
            nodup.2.1.1.1⟩
        have walked := walkToPredecessor_spec (node removing) read linked enough
          (chained.symm.trans whole) once.1 once.2 written
        simp only [remove, search, bind, Option.bind_some, start, other, if_false, readHead,
          walked]
    refine ⟨slots, _, _, updated.sameFree occupied, rfl, removes,
      represents.remove_inner split bound whole rest updated, fun i => ?_⟩
    by_cases same : i = before
    · subst same
      rw [entryOf, entryOf, Function.update_self]
    · rw [entryOf, entryOf, Function.update_of_ne same]

theorem Represents.remove_absent (represents : index.Represents capacity block order node)
    (buckets : 0 < index.totalBuckets) {key : K}
    (absent : order.find? (fun i => (node i).key = key) = none) :
    index.remove block key = some (.ok (), block) := by
  have search := represents.search_eq buckets key
  rw [absent, Option.map_none] at search
  simp [remove, search]

/-- The earliest node of a key, and the nodes before and behind it. -/
theorem find_key {key : K} {removing : Nat}
    (earliest : order.find? (fun i => (node i).key = key) = some removing) :
    (node removing).key = key ∧ ∃ pre post, order = pre ++ removing :: post ∧
      ∀ i ∈ pre, (node i).key ≠ key := by
  obtain ⟨found, pre, post, split, first⟩ := List.find?_eq_some_iff_append.mp earliest
  exact ⟨of_decide_eq_true found, pre, post, split,
    fun i member => by simpa using first i member⟩

theorem Refines.remove_ok {entries : List (K × Nat)} (refines : index.Refines capacity block entries)
    (buckets : 0 < index.totalBuckets) (key : K) :
    ∃ after, index.remove block key = some (.ok (), after) ∧
      index.Refines capacity after (FifoMultimap.remove entries key) := by
  obtain ⟨order, node, represents, rfl⟩ := refines
  cases earliest : order.find? (fun i => (node i).key = key) with
  | none =>
    have absent : FifoMultimap.get (order.map (entryOf node)) key = none := by
      rw [get_entries, earliest, Option.map_none]
    rw [FifoMultimap.remove_of_get_none absent]
    exact ⟨block, represents.remove_absent buckets earliest, order, node, represents, rfl⟩
  | some removing =>
    obtain ⟨rfl, pre, post, split, first⟩ := find_key earliest
    obtain ⟨slots, after, node', _, _, removes, represented, same⟩ :=
      represents.remove_ok buckets split first
    refine ⟨after, removes, pre ++ post, node', represented, ?_⟩
    rw [split, remove_entries first rfl]
    exact List.map_congr_left (fun i _ => (same i).symm)

end Remove
end Index
end InMemoryTable
