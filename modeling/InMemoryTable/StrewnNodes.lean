import InMemoryTable.IndexInvariant

/-! Processes that die inside a call of the index. A node that is stored and not yet
linked, or unlinked and not yet given back, is lost: it is in use and in no chain.
`SEM_UNDO` gives back the semaphore, and the next call finds the block as it is. -/
namespace InMemoryTable
open Chain

namespace Index
variable {K B : Type} (self : Index K B) (block : IndexBlock B)

/-- `insert` stopped behind `insert_node`. The walk in front of it writes nothing. -/
def insertStopped (key : K) (position : Nat) : IndexBlock B :=
  (self.insertNode block { key, position, next := Offset.none }).2

/-- The `loop` of `remove`, stopped in front of `remove_node`. -/
def walkToPredecessorStopped (removingIdx : Nat) (removingNode : Node K) :
    Nat → Nat → Node K → Option (IndexBlock B)
  | 0, _, _ => none
  | fuel + 1, lastNodeIdx, lastNode =>
    match lastNode.next.get with
    | some next =>
      if next = removingIdx then
        some (self.updateNode block lastNodeIdx { lastNode with next := removingNode.next }).2
      else do
        let node ← self.readNode block next
        walkToPredecessorStopped removingIdx removingNode fuel next node
    | none => some block

/-- `remove` stopped in front of `remove_node`. -/
def removeStopped [DecidableEq K] (key : K) : Option (IndexBlock B) := do
  match ← self.search block key with
  | some (removingIdx, removingNode) =>
    let bucketIdx := self.hash key
    let lastNodeIdx ← (block.buckets bucketIdx).get
    if lastNodeIdx = removingIdx then
      some (setBucket block bucketIdx removingNode.next)
    else
      let lastNode ← self.readNode block lastNodeIdx
      self.walkToPredecessorStopped block removingIdx removingNode block.slots.header.capacity
        lastNodeIdx lastNode
  | none => some block

theorem walkToPredecessorStopped_eq_visit {removing fuel first : Nat}
    {removingNode firstNode : Node K} :
    self.walkToPredecessorStopped block removing removingNode fuel first firstNode =
      (self.visit block (fun node => node.next.get = some removing) fuel first firstNode).stop.map
        (fun last => if last.2.next.get = some removing
          then (self.updateNode block last.1 { last.2 with next := removingNode.next }).2
          else block) := by
  induction fuel generalizing first firstNode with
  | zero => rfl
  | succ fuel ih =>
    cases link : firstNode.next.get with
    | none => simp [walkToPredecessorStopped, visit, link]
    | some next =>
      by_cases found : next = removing
      · subst found
        simp [walkToPredecessorStopped, visit, link]
      · cases read : self.readNode block next with
        | none => simp [walkToPredecessorStopped, visit, link, found, read]
        | some node => simp [walkToPredecessorStopped, visit, link, found, read, ih]

/-- The loop finds the predecessor, like the whole `remove`. -/
theorem walkToPredecessorStopped_spec {self : Index K B} {block : IndexBlock B} {fuel first : Nat}
    {node : Nat → Node K} {rest : List Nat} {before removing : Nat} {front back : List Nat}
    (removingNode : Node K) (read : ∀ i ∈ rest, self.readNode block i = some (node i))
    (linked : Linked Offset.some (fun i => (node i).next) (node first).next rest Offset.none)
    (enough : rest.length < fuel) (split : first :: rest = front ++ before :: removing :: back)
    (once : removing ∉ front) (distinct : before ≠ removing) :
    self.walkToPredecessorStopped block removing removingNode fuel first (node first) =
      some (self.updateNode block before { node before with next := removingNode.next }).2 := by
  have whole : Linked Offset.some (fun i => (node i).next) (Offset.some first)
      (front ++ before :: removing :: back) Offset.none := by
    rw [← split]
    exact ⟨rfl, linked⟩
  have found := find_predecessor whole once distinct
  rw [← split] at found
  have link : (node before).next.get = some removing := by simpa using List.find?_some found
  rw [walkToPredecessorStopped_eq_visit, visit_first read linked enough found, Option.map_some,
    if_pos link]

variable {index : Index K B} {block after : IndexBlock B} {capacity : Nat}
  {order lost : List Nat} {node : Nat → Node K}

/-- The nodes in `order` stand in the chains, oldest first, and the lost ones in none. -/
structure Strewn (index : Index K B) (capacity : Nat) (block : IndexBlock B)
    (order lost : List Nat) (node : Nat → Node K) : Prop where
  slots : Slots.Sized capacity index.layout.size block.slots
  nodup : (order ++ lost).Nodup
  live : ∀ i, i ∈ order ++ lost ↔ block.slots.Occupied i
  read : ∀ i ∈ order ++ lost, index.readNode block i = some (node i)
  chain : ∀ bucket < index.totalBuckets, Linked Offset.some (fun i => (node i).next)
    (block.buckets bucket) (index.chainOf node order bucket) Offset.none

theorem Represents.strewn (represents : index.Represents capacity block order node) :
    index.Strewn capacity block order [] node where
  slots := represents.slots
  nodup := by simpa using represents.nodup
  live i := by simpa using represents.live i
  read i member := represents.read i (by simpa using member)
  chain := represents.chain

/-- A new link leaves the entries as they are. -/
theorem entryOf_relink (node : Nat → Node K) (changed : Nat) (link : Offset) (i : Nat) :
    entryOf (Function.update node changed { node changed with next := link }) i =
      entryOf node i := by
  by_cases same : i = changed
  · subst same
    rw [entryOf, entryOf, Function.update_self]
  · rw [entryOf, entryOf, Function.update_of_ne same]

namespace Strewn

theorem length_eq (strewn : index.Strewn capacity block order lost node) :
    order.length + lost.length = block.slots.header.count := by
  rw [← List.length_append]
  exact strewn.slots.wellFormed.count_of_members strewn.nodup strewn.live

theorem length_le (strewn : index.Strewn capacity block order lost node) :
    order.length + lost.length ≤ capacity := by
  rw [strewn.length_eq, ← strewn.slots.capacity]
  exact strewn.slots.wellFormed.count_le

theorem occupied (strewn : index.Strewn capacity block order lost node) {i : Nat}
    (member : i ∈ order) : block.slots.Occupied i :=
  (strewn.live i).mp (List.mem_append_left _ member)

/-! ### The stores of a call -/

/-- `insert_node` stores a node that is in no chain yet. -/
theorem store (strewn : index.Strewn capacity block order lost node) {new : Nat}
    {written : Node K} {slots : Slots B}
    (inserted : Slots.Inserted block.slots new (index.layout.toBytes written) slots) :
    index.Strewn capacity { block with slots } order (new :: lost)
      (Function.update node new written) := by
  have outside : new ∉ order ++ lost := fun member =>
    ((strewn.live new).mp member).not_free inserted.wasFree
  have kept : ∀ i ∈ order ++ lost, Function.update node new written i = node i :=
    fun i member => Function.update_of_ne (ne_of_mem_of_not_mem member outside) ..
  have perm : (order ++ new :: lost).Perm (new :: (order ++ lost)) := List.perm_middle
  refine ⟨inserted.sized strewn.slots, ?_, fun i => ?_, fun i member => ?_,
    fun bucket bound => ?_⟩
  · exact perm.nodup_iff.mpr (List.nodup_cons.mpr ⟨outside, strewn.nodup⟩)
  · rw [perm.mem_iff, List.mem_cons, strewn.live, or_comm]
    exact inserted.occupied_iff.symm
  · rcases List.mem_cons.mp (perm.mem_iff.mp member) with rfl | member
    · rw [Function.update_self]
      exact readNode_of_stored inserted.stored
    · rw [kept i member, ← strewn.read i member]
      exact readNode_congr (inserted.others i (ne_of_mem_of_not_mem member outside))
  · have old : ∀ i ∈ order, Function.update node new written i = node i :=
      fun i member => kept i (List.mem_append_left _ member)
    rw [chainOf_congr (fun i member => by rw [old i member])]
    exact (strewn.chain bucket bound).congr
      (fun i member => by rw [old i (mem_chainOf.mp member).1])

/-- `remove_node` gives back a node that is in no chain any more. -/
theorem giveBack {removing : Nat}
    (strewn : index.Strewn capacity block order (removing :: lost) node) :
    index.Strewn capacity (removeNode block removing) order lost node := by
  have perm : (order ++ removing :: lost).Perm (removing :: (order ++ lost)) := List.perm_middle
  obtain ⟨outside, nodup⟩ := List.nodup_cons.mp (perm.nodup_iff.mp strewn.nodup)
  have member_of : ∀ {i}, i ∈ order ++ lost → i ∈ order ++ removing :: lost :=
    fun member => perm.mem_iff.mpr (List.mem_cons_of_mem _ member)
  have removed := strewn.slots.wellFormed.remove_ok
    ((strewn.live removing).mp (perm.mem_iff.mpr List.mem_cons_self))
  refine ⟨removed.sized strewn.slots, nodup, fun i => ?_, fun i member => ?_, strewn.chain⟩
  · refine Iff.trans ?_ removed.occupied_iff.symm
    rw [← strewn.live, perm.mem_iff, List.mem_cons]
    constructor
    · exact fun member => ⟨.inr member, ne_of_mem_of_not_mem member outside⟩
    · rintro ⟨rfl | member, different⟩
      · exact absurd rfl different
      · exact member
  · rw [← strewn.read i (member_of member)]
    exact readNode_congr (removed.others i (ne_of_mem_of_not_mem member outside))

/-- A link of one bucket changes, and with it the chain of that bucket. -/
theorem relink (strewn : index.Strewn capacity block order lost node) {order' lost' : List Nat}
    {node' : Nat → Node K} {bucket : Nat} (perm : (order' ++ lost').Perm (order ++ lost))
    (sized : Slots.Sized capacity index.layout.size after.slots)
    (used : ∀ i, after.slots.Occupied i ↔ block.slots.Occupied i)
    (keys : ∀ i, (node' i).key = (node i).key)
    (read : ∀ i ∈ order ++ lost, index.readNode after i = some (node' i))
    (others : ∀ other, other ≠ bucket → after.buckets other = block.buckets other ∧
      index.chainOf node order' other = index.chainOf node order other ∧
      ∀ i ∈ index.chainOf node order other, (node' i).next = (node i).next)
    (linked : Linked Offset.some (fun i => (node' i).next) (after.buckets bucket)
      (index.chainOf node order' bucket) Offset.none) :
    index.Strewn capacity after order' lost' node' := by
  refine ⟨sized, perm.nodup_iff.mpr strewn.nodup, fun i => ?_,
    fun i member => read i (perm.mem_iff.mp member), fun other bound => ?_⟩
  · rw [perm.mem_iff, strewn.live, used]
  · rw [chainOf_congr (fun i _ => keys i)]
    by_cases mine : other = bucket
    · subst mine
      exact linked
    · obtain ⟨head, same, links⟩ := others other mine
      rw [head, same]
      exact (strewn.chain other bound).congr links

/-- The link that changes is that of the bucket. -/
theorem relink_bucket (strewn : index.Strewn capacity block order lost node)
    {order' lost' : List Nat} {bucket : Nat} {start : Offset}
    (perm : (order' ++ lost').Perm (order ++ lost))
    (others : ∀ other, other ≠ bucket →
      index.chainOf node order' other = index.chainOf node order other)
    (linked : Linked Offset.some (fun i => (node i).next) start
      (index.chainOf node order' bucket) Offset.none) :
    index.Strewn capacity (setBucket block bucket start) order' lost' node := by
  refine strewn.relink perm strewn.slots (fun _ => Iff.rfl) (fun _ => rfl) strewn.read
    (fun other different => ⟨Function.update_of_ne different .., others other different,
      fun _ _ => rfl⟩) ?_
  change Linked _ _ (Function.update block.buckets bucket start bucket) _ _
  rwa [Function.update_self]

/-- The link that changes is that of a node of the chain. -/
theorem relink_node (strewn : index.Strewn capacity block order lost node)
    {order' lost' : List Nat} {changed : Nat} {link : Offset} {slots : Slots B}
    (member : changed ∈ order) (perm : (order' ++ lost').Perm (order ++ lost))
    (updated : Slots.Updated block.slots changed
      (index.layout.toBytes { node changed with next := link }) slots)
    (others : ∀ other, other ≠ index.hash (node changed).key →
      index.chainOf node order' other = index.chainOf node order other)
    (linked : Linked Offset.some
      (fun i => (Function.update node changed { node changed with next := link } i).next)
      (block.buckets (index.hash (node changed).key))
      (index.chainOf node order' (index.hash (node changed).key)) Offset.none) :
    index.Strewn capacity { block with slots } order' lost'
      (Function.update node changed { node changed with next := link }) := by
  refine strewn.relink perm (updated.sized strewn.slots)
    (fun i => updated.occupied_iff (strewn.occupied member))
    (fun i => congrArg Prod.fst (entryOf_relink node changed link i)) (fun i inside => ?_)
    (fun other different => ⟨rfl, others other different, fun i inside => ?_⟩) linked
  · by_cases same : i = changed
    · subst same
      rw [Function.update_self]
      exact readNode_of_stored updated.stored
    · rw [Function.update_of_ne same, ← strewn.read i inside]
      exact readNode_congr (updated.others i same)
  · rw [Function.update_of_ne]
    rintro rfl
    exact different (mem_chainOf.mp inside).2.symm

theorem order_nodup (strewn : index.Strewn capacity block order lost node) : order.Nodup :=
  (List.nodup_append.mp strewn.nodup).1

section Link
variable {new : Nat}

theorem chainOf_link_other (index : Index K B) (node : Nat → Node K) (order : List Nat)
    {new : Nat} (other : Nat) (different : other ≠ index.hash (node new).key) :
    index.chainOf node (order ++ [new]) other = index.chainOf node order other := by
  rw [chainOf_append]
  simp [chainOf, Ne.symm different]

theorem chainOf_link (index : Index K B) (node : Nat → Node K) (order : List Nat) (new : Nat) :
    index.chainOf node (order ++ [new]) (index.hash (node new).key) =
      index.chainOf node order (index.hash (node new).key) ++ [new] := by
  rw [chainOf_append]
  simp [chainOf]

/-- The bucket of a stored node leads to it, if it led to none. -/
theorem link_first (strewn : index.Strewn capacity block order (new :: lost) node)
    (stop : (node new).next = Offset.none)
    (empty : index.chainOf node order (index.hash (node new).key) = []) :
    index.Strewn capacity (setBucket block (index.hash (node new).key) (Offset.some new))
      (order ++ [new]) lost node := by
  refine strewn.relink_bucket (by rw [List.append_assoc]; exact .refl _)
    (chainOf_link_other index node order) ?_
  rw [chainOf_link, empty]
  exact ⟨rfl, stop⟩

/-- The last node of the chain takes the link to a stored node. -/
theorem link_last (strewn : index.Strewn capacity block order (new :: lost) node)
    (buckets : 0 < index.totalBuckets) (stop : (node new).next = Offset.none) {front : List Nat}
    {last : Nat} {slots : Slots B}
    (split : index.chainOf node order (index.hash (node new).key) = front ++ [last])
    (updated : Slots.Updated block.slots last
      (index.layout.toBytes { node last with next := Offset.some new }) slots) :
    index.Strewn capacity { block with slots } (order ++ [new]) lost
      (Function.update node last { node last with next := Offset.some new }) := by
  have lastIn : last ∈ index.chainOf node order (index.hash (node new).key) := by simp [split]
  obtain ⟨member, hashed⟩ := mem_chainOf.mp lastIn
  have apart : ∀ i ∈ order, i ≠ new := fun i member =>
    (List.nodup_append.mp strewn.nodup).2.2 i member new List.mem_cons_self
  have outside : last ∉ front := by
    have nodup : (front ++ [last]).Nodup := split ▸ strewn.order_nodup.filter _
    exact fun inside => (List.nodup_append.mp nodup).2.2 last inside last List.mem_cons_self rfl
  refine strewn.relink_node member (by rw [List.append_assoc]; exact .refl _) updated
    (hashed ▸ chainOf_link_other index node order) ?_
  have linked := strewn.chain (index.hash (node new).key) (Nat.mod_lt _ buckets)
  rw [hashed, chainOf_link, split, List.append_assoc]
  rw [split] at linked
  apply linked.append_last (by rw [Function.update_self])
    (by rw [Function.update_of_ne (apart last member).symm, stop])
  intro i inside
  rw [Function.update_of_ne (ne_of_mem_of_not_mem inside outside)]

end Link

section Unlink
variable {pre post : List Nat} {removing : Nat}

theorem chainOf_unlink_other (index : Index K B) (node : Nat → Node K) (pre post : List Nat)
    {removing : Nat} (other : Nat) (different : other ≠ index.hash (node removing).key) :
    index.chainOf node (pre ++ post) other =
      index.chainOf node (pre ++ removing :: post) other := by
  rw [chainOf_append, chainOf_append]
  simp [chainOf, Ne.symm different]

theorem chainOf_unlink (index : Index K B) (node : Nat → Node K) (pre post : List Nat)
    (removing : Nat) :
    index.chainOf node (pre ++ removing :: post) (index.hash (node removing).key) =
      index.chainOf node pre (index.hash (node removing).key) ++
        removing :: index.chainOf node post (index.hash (node removing).key) := by
  rw [chainOf_append]
  simp [chainOf]

theorem perm_unlink (pre post lost : List Nat) (removing : Nat) :
    ((pre ++ post) ++ removing :: lost).Perm ((pre ++ removing :: post) ++ lost) := by
  rw [List.append_assoc, List.append_assoc]
  exact List.Perm.append_left pre List.perm_middle

/-- The bucket skips its first node. -/
theorem unlink_first (strewn : index.Strewn capacity block (pre ++ removing :: post) lost node)
    (buckets : 0 < index.totalBuckets)
    (first : index.chainOf node pre (index.hash (node removing).key) = []) :
    index.Strewn capacity
      (setBucket block (index.hash (node removing).key) (node removing).next) (pre ++ post)
      (removing :: lost) node := by
  refine strewn.relink_bucket (perm_unlink pre post lost removing)
    (chainOf_unlink_other index node pre post) ?_
  have linked := strewn.chain (index.hash (node removing).key) (Nat.mod_lt _ buckets)
  rw [chainOf_unlink, first] at linked
  rw [chainOf_append, first]
  exact linked.2

/-- The predecessor skips a node. -/
theorem unlink_inner (strewn : index.Strewn capacity block (pre ++ removing :: post) lost node)
    (buckets : 0 < index.totalBuckets) {front : List Nat} {before : Nat} {slots : Slots B}
    (split : index.chainOf node pre (index.hash (node removing).key) = front ++ [before])
    (updated : Slots.Updated block.slots before
      (index.layout.toBytes { node before with next := (node removing).next }) slots) :
    index.Strewn capacity { block with slots } (pre ++ post) (removing :: lost)
      (Function.update node before { node before with next := (node removing).next }) := by
  have beforeIn : before ∈ index.chainOf node pre (index.hash (node removing).key) := by
    simp [split]
  obtain ⟨member, hashed⟩ := mem_chainOf.mp beforeIn
  have whole := chainOf_unlink index node pre post removing
  rw [split, List.append_assoc, List.singleton_append] at whole
  have once : before ∉ front ++ index.chainOf node post (index.hash (node removing).key) := by
    have nodup : (front ++ before :: removing ::
        index.chainOf node post (index.hash (node removing).key)).Nodup :=
      whole ▸ strewn.order_nodup.filter _
    have outside := (List.nodup_cons.mp (List.perm_middle.nodup_iff.mp nodup)).1
    simp only [List.mem_append, List.mem_cons, not_or] at outside ⊢
    exact ⟨outside.1, outside.2.2⟩
  refine strewn.relink_node (List.mem_append_left _ member) (perm_unlink pre post lost removing)
    updated (hashed ▸ chainOf_unlink_other index node pre post) ?_
  have linked := strewn.chain (index.hash (node removing).key) (Nat.mod_lt _ buckets)
  rw [whole] at linked
  rw [hashed, chainOf_append, split, List.append_assoc]
  apply linked.unlink (by rw [Function.update_self])
  intro i inside
  rw [Function.update_of_ne (ne_of_mem_of_not_mem inside once)]

end Unlink

/-! ### The calls -/

theorem chain_head (strewn : index.Strewn capacity block order lost node) {key : K} {first : Nat}
    {rest : List Nat} (buckets : 0 < index.totalBuckets)
    (split : index.chainOf node order (index.hash key) = first :: rest) :
    (block.buckets (index.hash key)).get = some first ∧
      index.readNode block first = some (node first) ∧
      (∀ i ∈ rest, index.readNode block i = some (node i)) ∧
      Linked Offset.some (fun i => (node i).next) (node first).next rest Offset.none ∧
      rest.length < block.slots.header.capacity := by
  have linked := strewn.chain (index.hash key) (Nat.mod_lt _ buckets)
  have read : ∀ i ∈ first :: rest, index.readNode block i = some (node i) := by
    intro i member
    rw [← split] at member
    exact strewn.read i (List.mem_append_left _ (mem_chainOf.mp member).1)
  have short := chainOf_length_le index node order (index.hash key)
  have total := strewn.length_le
  rw [split] at linked short
  obtain ⟨head, linked⟩ := linked
  refine ⟨by rw [head, Offset.get_some], read first List.mem_cons_self,
    fun i member => read i (List.mem_cons_of_mem _ member), linked, ?_⟩
  rw [strewn.slots.capacity]
  simp only [List.length_cons] at short
  omega

theorem bucket_empty (strewn : index.Strewn capacity block order lost node)
    (buckets : 0 < index.totalBuckets) {key : K}
    (empty : index.chainOf node order (index.hash key) = []) :
    block.buckets (index.hash key) = Offset.none := by
  have linked := strewn.chain (index.hash key) (Nat.mod_lt _ buckets)
  rwa [empty] at linked

theorem walk_last (strewn : index.Strewn capacity block order lost node) {key : K}
    (buckets : 0 < index.totalBuckets) {front : List Nat} {last : Nat}
    (split : index.chainOf node order (index.hash key) = front ++ [last]) :
    ∃ first, (block.buckets (index.hash key)).get = some first ∧
      index.readNode block first = some (node first) ∧
      index.walkToLast block block.slots.header.capacity first (node first) =
        some (last, node last) := by
  cases whole : index.chainOf node order (index.hash key) with
  | nil => simp [whole] at split
  | cons first rest =>
    obtain ⟨head, readFirst, read, linked, enough⟩ := strewn.chain_head buckets whole
    exact ⟨first, head, readFirst, walkToLast_spec read linked enough (whole.symm.trans split)⟩

theorem insert_of_empty (strewn : index.Strewn capacity block order lost node) {key : K}
    {position new : Nat} (buckets : 0 < index.totalBuckets)
    (empty : index.chainOf node order (index.hash key) = [])
    (written : index.insertNode block ⟨key, position, Offset.none⟩ = (.ok new, after)) :
    index.insert block key position =
      some (.ok (), setBucket after (index.hash key) (Offset.some new)) := by
  simp only [insert, strewn.bucket_empty buckets empty, Offset.get_none, written]

theorem insert_behind (strewn : index.Strewn capacity block order lost node) {key : K}
    {position new : Nat} (buckets : 0 < index.totalBuckets) {front : List Nat} {last : Nat}
    (split : index.chainOf node order (index.hash key) = front ++ [last])
    (written : index.insertNode block ⟨key, position, Offset.none⟩ = (.ok new, after)) :
    index.insert block key position =
      some (index.updateNode after last { node last with next := Offset.some new }) := by
  obtain ⟨first, head, readFirst, walked⟩ := strewn.walk_last buckets split
  simp only [insert, head, readFirst, bind, Option.bind_some, walked, written]

theorem insert_error (strewn : index.Strewn capacity block order lost node) {key : K}
    {position : Nat} {e : InMemoryTableError} (buckets : 0 < index.totalBuckets)
    (written : index.insertNode block ⟨key, position, Offset.none⟩ = (.error e, after)) :
    index.insert block key position = some (.error e, after) := by
  rcases List.eq_nil_or_concat (index.chainOf node order (index.hash key)) with
    empty | ⟨front, last, split⟩
  · simp only [insert, strewn.bucket_empty buckets empty, Offset.get_none, written]
  · rw [List.concat_eq_append] at split
    obtain ⟨first, head, readFirst, walked⟩ := strewn.walk_last buckets split
    simp only [insert, head, readFirst, bind, Option.bind_some, walked, written]

/-- The first half of an insertion. -/
theorem insertNode_ok (strewn : index.Strewn capacity block order lost node) (written : Node K)
    (room : order.length + lost.length < capacity) :
    ∃ new slots stored, index.insertNode block written = (.ok new, { block with slots }) ∧
      index.Strewn capacity { block with slots } order (new :: lost) stored ∧
      stored new = written ∧ ∀ i ∈ order ++ lost, stored i = node i := by
  rw [strewn.length_eq] at room
  obtain ⟨full, _⟩ | ⟨_, new, slots, same, inserted⟩ := insertNode_cases strewn.slots written
  · omega
  refine ⟨new, slots, _, same, strewn.store inserted, Function.update_self .., fun i member => ?_⟩
  refine Function.update_of_ne ?_ ..
  rintro rfl
  exact ((strewn.live i).mp member).not_free inserted.wasFree

/-- An insertion stores its node, which is lost if the process dies, and links it. -/
theorem insert_ok (strewn : index.Strewn capacity block order lost node)
    (buckets : 0 < index.totalBuckets) (key : K) (position : Nat)
    (room : order.length + lost.length < capacity) :
    ∃ new stored after linked,
      index.Strewn capacity (index.insertStopped block key position) order (new :: lost) stored ∧
      index.insert block key position = some (.ok (), after) ∧
      index.Strewn capacity after (order ++ [new]) lost linked ∧
      (∀ i ∈ order ++ lost, entryOf stored i = entryOf node i) ∧
      entryOf stored new = (key, position) ∧ ∀ i, entryOf linked i = entryOf stored i := by
  obtain ⟨new, slots, stored, written, strewn', fresh, old⟩ :=
    strewn.insertNode_ok ⟨key, position, Offset.none⟩ room
  have chained : index.chainOf stored order (index.hash key) =
      index.chainOf node order (index.hash key) :=
    chainOf_congr (fun i member => by rw [old i (List.mem_append_left _ member)]) _
  have link : (stored new).next = Offset.none := by rw [fresh]
  have own : index.hash (stored new).key = index.hash key := by rw [fresh]
  have entries : ∀ i ∈ order ++ lost, entryOf stored i = entryOf node i :=
    fun i member => by rw [entryOf, entryOf, old i member]
  have entry : entryOf stored new = (key, position) := by rw [entryOf, fresh]
  rw [show index.insertStopped block key position = { block with slots } by
    rw [insertStopped, written]]
  rcases List.eq_nil_or_concat (index.chainOf node order (index.hash key)) with
    empty | ⟨front, last, split⟩
  · refine ⟨new, stored, _, stored, strewn', ?_,
      strewn'.link_first link (by rw [own, chained, empty]), entries, entry, fun _ => rfl⟩
    rw [own]
    exact strewn.insert_of_empty buckets empty written
  · rw [List.concat_eq_append] at split
    have lastIn : last ∈ order := by
      have member : last ∈ index.chainOf node order (index.hash key) := by simp [split]
      exact (mem_chainOf.mp member).1
    have same : stored last = node last := old last (List.mem_append_left _ lastIn)
    obtain ⟨slots', rewritten, updated⟩ := updateNode_ok index { block with slots } strewn'.slots
      (strewn'.occupied lastIn) { stored last with next := Offset.some new }
    refine ⟨new, stored, _, _, strewn', ?_,
      strewn'.link_last buckets link (by rw [own, chained, split]) updated, entries, entry,
      entryOf_relink stored last _⟩
    rw [strewn.insert_behind buckets split written, ← same]
    exact congrArg some rewritten

theorem insert_full (strewn : index.Strewn capacity block order lost node)
    (buckets : 0 < index.totalBuckets) (key : K) (position : Nat)
    (full : capacity ≤ order.length + lost.length) :
    index.insert block key position = some (.error (.tableFull capacity capacity), block) ∧
      index.insertStopped block key position = block := by
  have exact : block.slots.header.count = capacity := by
    have := strewn.length_le
    rw [← strewn.length_eq]
    omega
  obtain ⟨_, written⟩ | ⟨room, _⟩ :=
    insertNode_cases strewn.slots ⟨key, position, Offset.none⟩
  · rw [exact] at written
    exact ⟨strewn.insert_error buckets written, by rw [insertStopped, written]⟩
  · omega

section Remove
variable [DecidableEq K]

theorem search_eq (strewn : index.Strewn capacity block order lost node)
    (buckets : 0 < index.totalBuckets) (key : K) :
    index.search block key =
      some ((order.find? (fun i => (node i).key = key)).map (fun i => (i, node i))) := by
  rw [← find_chainOf index]
  cases whole : index.chainOf node order (index.hash key) with
  | nil =>
    simp only [search, strewn.bucket_empty buckets whole, Offset.get_none, List.find?_nil,
      Option.map_none]
  | cons first rest =>
    obtain ⟨head, readFirst, read, linked, enough⟩ := strewn.chain_head buckets whole
    simp only [search, head, readFirst, bind, Option.bind_some]
    exact walkToKey_spec key read linked enough

/-- A removal unlinks the earliest node of the key, which is lost if the process dies, and
gives it back. -/
theorem remove_ok {pre post : List Nat} {removing : Nat}
    (strewn : index.Strewn capacity block (pre ++ removing :: post) lost node)
    (buckets : 0 < index.totalBuckets)
    (first : ∀ i ∈ pre, (node i).key ≠ (node removing).key) :
    ∃ after unlinked,
      index.removeStopped block (node removing).key = some after ∧
      index.Strewn capacity after (pre ++ post) (removing :: lost) unlinked ∧
      index.remove block (node removing).key = some (.ok (), removeNode after removing) ∧
      ∀ i, entryOf unlinked i = entryOf node i := by
  have search := strewn.search_eq buckets (node removing).key
  have earliest : (pre ++ removing :: post).find? (fun i => (node i).key = (node removing).key) =
      some removing := by
    rw [List.find?_append, List.find?_eq_none.mpr (by simpa using first)]
    simp
  rw [earliest, Option.map_some] at search
  have whole := chainOf_unlink index node pre post removing
  rcases List.eq_nil_or_concat (index.chainOf node pre (index.hash (node removing).key)) with
    empty | ⟨front, before, last⟩
  · rw [empty, List.nil_append] at whole
    obtain ⟨head, _⟩ := strewn.chain_head buckets whole
    refine ⟨_, node, ?_, strewn.unlink_first buckets empty, ?_, fun _ => rfl⟩
    · simp only [removeStopped, search, bind, Option.bind_some, head, if_true]
    · simp only [remove, search, bind, Option.bind_some, head, if_true]
  · rw [List.concat_eq_append] at last
    rw [last, List.append_assoc, List.singleton_append] at whole
    have inPre : before ∈ pre := by
      have member : before ∈ index.chainOf node pre (index.hash (node removing).key) := by
        simp [last]
      exact (mem_chainOf.mp member).1
    obtain ⟨slots, written, updated⟩ := updateNode_ok index block strewn.slots
      (strewn.occupied (List.mem_append_left _ inPre))
      { node before with next := (node removing).next }
    have nodup : (front ++ before :: removing ::
        index.chainOf node post (index.hash (node removing).key)).Nodup :=
      whole ▸ strewn.order_nodup.filter _
    have once : removing ∉ front ∧ before ≠ removing := by
      simp only [List.nodup_append, List.nodup_cons, List.mem_cons, not_or] at nodup
      exact ⟨fun member => nodup.2.2 removing member removing (.inr (.inl rfl)) rfl,
        nodup.2.1.1.1⟩
    cases chained : index.chainOf node (pre ++ removing :: post) (index.hash (node removing).key)
      with
    | nil => simp [chained] at whole
    | cons head tail =>
      obtain ⟨start, readHead, read, linked, enough⟩ := strewn.chain_head buckets chained
      have split := chained.symm.trans whole
      have other : head ≠ removing := by
        rintro rfl
        cases front with
        | nil =>
          cases split
          exact once.2 rfl
        | cons i rest =>
          cases split
          exact once.1 List.mem_cons_self
      have walked := walkToPredecessor_spec (node removing) read linked enough split once.1 once.2
        written
      have stopped := walkToPredecessorStopped_spec (node removing) read linked enough split once.1
        once.2
      refine ⟨_, _, ?_, strewn.unlink_inner buckets last updated, ?_, entryOf_relink node before _⟩
      · simp only [removeStopped, search, bind, Option.bind_some, start, other, if_false, readHead,
          stopped, written]
      · simp only [remove, search, bind, Option.bind_some, start, other, if_false, readHead,
          walked]

theorem remove_absent (strewn : index.Strewn capacity block order lost node)
    (buckets : 0 < index.totalBuckets) {key : K}
    (absent : order.find? (fun i => (node i).key = key) = none) :
    index.remove block key = some (.ok (), block) ∧
      index.removeStopped block key = some block := by
  have search := strewn.search_eq buckets key
  rw [absent, Option.map_none] at search
  simp [remove, removeStopped, search]

end Remove

end Strewn
end Index

end InMemoryTable
