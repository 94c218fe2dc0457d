import InMemoryTable.RawIndex

/-! The calls of the index on bytes do to the block that the bytes show what the
calls on a block do: every address that a walk follows is that of a slot in use, and
no write to a bucket or to a slot reaches another one. -/
namespace InMemoryTable
open ByteMemory Chain

/-- The numbers in the node fit into their words. -/
structure Node.Small {K : Type} (node : Node K) : Prop where
  position : node.position < usizeModulus
  next : node.next.value < usizeModulus

namespace Slots
variable {K : Type} {layout : NodeBytes K} {store : Slots UInt8} {written : Node K} {index : Nat}

/-- Slots for one node each. -/
structure NodeSized (layout : NodeBytes K) (store : Slots UInt8) : Prop where
  slotSize : store.header.slotSize = slotMetadataSize + layout.size
  length : ∀ i, (store.slot i).buffer.length = layout.size

theorem NodeSized.maxData (sized : store.NodeSized layout) : store.maxData = layout.size :=
  stride_sub sized.slotSize

theorem cells_setRecordData (small : written.Small)
    (length : ∀ i, (store.slot i).buffer.length = layout.size) :
    (store.setRecordData index (layout.toBytes written)).cells layout =
      (store.cells layout).setRecordData index ((NodeLayout.cell K).toBytes written) := by
  simp only [cells, NodeBytes.cell, setRecordData, mk.injEq, true_and]
  funext i
  by_cases same : i = index
  · subst same
    have rest : (store.slot i).buffer.drop (layout.toBytes written).length = [] :=
      List.drop_of_length_le (by rw [length, layout.length_toBytes])
    have cell : ((layout.ofBytes (store.slot i).buffer).toList).drop 1 = [] :=
      List.drop_of_length_le (Option.length_toList_le ..)
    simp [rest, cell, NodeLayout.cell, layout.ofBytes_toBytes written small.position small.next]
  · simp only [Function.update_of_ne same]

theorem cells_insert (small : written.Small) (sized : store.NodeSized layout)
    (unused : store.header.count < store.header.capacity →
      (store.slot store.header.firstFree).state = .free) :
    Prod.map id (cells layout) (store.insert (layout.toBytes written)) =
      (store.cells layout).insert ((NodeLayout.cell K).toBytes written) := by
  have limit : (store.cells layout).maxData = 1 := rfl
  have count : (store.cells layout).header.count = store.header.count := rfl
  have capacity : (store.cells layout).header.capacity = store.header.capacity := rfl
  have fits : ¬ layout.size > layout.size := Nat.lt_irrefl _
  have cell : ((NodeLayout.cell K).toBytes written).length = 1 := rfl
  simp only [insert, sized.maxData, layout.length_toBytes, fits, limit, cell, count, capacity,
    gt_iff_lt, Nat.lt_irrefl, if_false]
  split
  · rfl
  · rename_i room
    have link : ((store.cells layout).slot store.header.firstFree).size =
        (store.slot store.header.firstFree).size := if_pos (unused (Nat.lt_of_not_le room))
    have firstFree : (store.cells layout).header.firstFree = store.header.firstFree := rfl
    simp only [Prod.map, id, firstFree, link, Prod.mk.injEq, true_and]
    exact cells_setRecordData small sized.length

theorem cells_update (small : written.Small) (sized : store.NodeSized layout) :
    Prod.map id (cells layout) (store.update index (layout.toBytes written)) =
      (store.cells layout).update index ((NodeLayout.cell K).toBytes written) := by
  have limit : (store.cells layout).maxData = 1 := rfl
  have cell : ((NodeLayout.cell K).toBytes written).length = 1 := rfl
  simp only [update, sized.maxData, layout.length_toBytes, limit, cell, gt_iff_lt, Nat.lt_irrefl,
    if_false, Prod.map, id, cells_setRecordData small sized.length]

theorem cells_remove : (store.remove index).cells layout = (store.cells layout).remove index := by
  simp only [remove, setMetadata, cells, NodeBytes.cell, mk.injEq, true_and]
  funext i
  by_cases same : i = index
  · subst same
    simp
  · simp only [Function.update_of_ne same]

theorem new_cells (memory : Nat → Slot UInt8) (capacity : Nat) :
    (new memory capacity layout.size).cells layout =
      new (fun i => layout.cell (memory i)) capacity (NodeLayout.cell K).size := by
  have one : slotMetadataSize + (NodeLayout.cell K).size =
      wrappingAdd slotMetadataSize (NodeLayout.cell K).size := rfl
  simp only [new, initializeFreeList, initialize_fold, cells, SlotsHeader.new, mk.injEq, one,
    true_and]
  funext i
  split <;> rfl

theorem WellFormed.firstFree_free {B : Type} {store : Slots B} (wf : store.WellFormed)
    (room : store.header.count < store.header.capacity) : store.Free store.header.firstFree := by
  obtain ⟨free, ⟨linked, _, member⟩, total⟩ := wf.threaded
  cases free with
  | nil =>
    simp only [List.length_nil] at total
    omega
  | cons first rest =>
    have start : store.header.firstFree = first := linked.1
    exact start ▸ (member first).mp List.mem_cons_self

end Slots

namespace RawSlots
variable {layout : HeaderLayout} {self : RawSlots} {memory after : ByteMemory}
  {capacity dataSize index : Nat}

/-- A call that has left these slots, and no byte outside of the store changed. -/
structure Done (layout : HeaderLayout) (handle : RawSlots) (capacity dataSize : Nat)
    (memory after : ByteMemory) (slots : Slots UInt8) : Prop where
  view : handle.view layout after dataSize = slots
  spaced : Spaced layout handle after dataSize
  frame : RegionFrame handle dataSize capacity memory after

theorem Done.refl (spaced : Spaced layout self memory dataSize) :
    Done layout self capacity dataSize memory memory (self.view layout memory dataSize) :=
  ⟨rfl, spaced, Frame.refl _ _ _⟩

section
variable (spaced : Spaced layout self memory dataSize) (small : dataSize < usizeModulus)
include spaced small

theorem insert_done {data : List UInt8} (inside : ∀ {index slots},
      (self.view layout memory dataSize).insert data = (.ok index, slots) → index < capacity) :
    ∃ after, self.insert layout memory data =
        (((self.view layout memory dataSize).insert data).1, after) ∧
      Done layout self capacity dataSize memory after
        ((self.view layout memory dataSize).insert data).2 := by
  have same : Prod.map id _ (self.insert layout memory data) = _ := insert_eq spaced small
  cases inserted : self.insert layout memory data with
  | mk result after =>
    rw [inserted] at same
    rw [← same]
    cases result with
    | error e =>
      rw [insert_error inserted]
      exact ⟨memory, rfl, .refl spaced⟩
    | ok index =>
      have touched := insert_ok spaced inserted
      exact ⟨after, rfl, rfl, touched.slotSize.trans spaced, touched.region (inside same.symm)⟩

theorem update_done (inside : index < capacity) (data : List UInt8) :
    ∃ after, self.update layout memory index data =
        (((self.view layout memory dataSize).update index data).1, after) ∧
      Done layout self capacity dataSize memory after
        ((self.view layout memory dataSize).update index data).2 := by
  have same : Prod.map id _ (self.update layout memory index data) = _ := update_eq spaced small
  cases updated : self.update layout memory index data with
  | mk result after =>
    rw [updated] at same
    rw [← same]
    cases result with
    | error e =>
      rw [update_error updated]
      exact ⟨memory, rfl, .refl spaced⟩
    | ok done =>
      have touched := update_ok spaced updated
      exact ⟨after, rfl, rfl, touched.slotSize.trans spaced, touched.region inside⟩

end

theorem remove_done (spaced : Spaced layout self memory dataSize) (counted : capacity < usizeModulus)
    (inside : index < capacity) :
    Done layout self capacity dataSize memory (self.remove layout memory index)
      ((self.view layout memory dataSize).remove index) where
  view := remove_eq spaced (inside.trans counted)
  spaced := by
    have same := congrArg (fun slots => slots.header.slotSize)
      (remove_eq spaced (inside.trans counted))
    exact Eq.trans same spaced
  frame := remove_frame spaced inside

theorem new_done {basePtr : Nat} (aligned : checkAligned basePtr headerAlignment = .ok ())
    (counted : capacity < usizeModulus) (small : Slots.slotMetadataSize + dataSize < usizeModulus)
    (memory : ByteMemory) :
    ∃ after, new layout memory basePtr capacity dataSize = (.ok ⟨basePtr⟩, after) ∧
      Done layout ⟨basePtr⟩ capacity dataSize memory after
        (Slots.new (view layout ⟨basePtr⟩ memory dataSize).slot capacity dataSize) := by
  have created : new layout memory basePtr capacity dataSize =
      (.ok ⟨basePtr⟩, (new layout memory basePtr capacity dataSize).2) := by
    simp only [new, aligned]
  have made := new_made counted small created
  refine ⟨_, created, made.view, ?_, made.frame⟩
  have slotSize := congrArg (fun slots => slots.header.slotSize) made.view
  simp only [Slots.new_header] at slotSize
  exact slotSize.trans (Slots.stride_add small)

end RawSlots

/-- Sizes that do not wrap around leave out of account what the slots hold. -/
theorem Slots.NoWrap.metadata_lt {basePtr capacity dataSize : Nat}
    (noWrap : NoWrap basePtr capacity dataSize) :
    basePtr + slotsHeaderSize + slotMetadataSize * capacity < usizeModulus := by
  have slots : slotMetadataSize * capacity ≤ (slotMetadataSize + dataSize) * capacity :=
    Nat.mul_le_mul_right _ (Nat.le_add_right ..)
  unfold NoWrap at noWrap
  omega

theorem Slots.NoWrap.slotSize_lt {basePtr capacity dataSize : Nat}
    (noWrap : NoWrap basePtr capacity dataSize) (positive : 1 ≤ capacity) :
    slotMetadataSize + dataSize < usizeModulus := by
  have one : (slotMetadataSize + dataSize) * 1 ≤ (slotMetadataSize + dataSize) * capacity :=
    Nat.mul_le_mul_left _ positive
  unfold NoWrap at noWrap
  omega

namespace Index
variable {K B : Type} {index : Index K B} {block : IndexBlock B} {capacity : Nat}
  {order : List Nat} {node : Nat → Node K}

theorem insertNode_eq (written : Node K) : index.insertNode block written =
    Prod.map id (fun slots => { block with slots })
      (block.slots.insert (index.layout.toBytes written)) := by
  unfold insertNode
  cases block.slots.insert (index.layout.toBytes written)
  rfl

theorem updateNode_eq (i : Nat) (written : Node K) : index.updateNode block i written =
    Prod.map id (fun slots => { block with slots })
      (block.slots.update i (index.layout.toBytes written)) := by
  unfold updateNode
  cases block.slots.update i (index.layout.toBytes written)
  rfl

theorem insertNode_lt (sized : Slots.Sized capacity index.layout.size block.slots)
    {written : Node K} {i : Nat} {after : IndexBlock B}
    (inserted : index.insertNode block written = (.ok i, after)) : i < capacity := by
  obtain ⟨_, failed⟩ | ⟨_, new, slots, ok, added⟩ := insertNode_cases sized written
  · cases inserted.symm.trans failed
  · cases inserted.symm.trans ok
    exact sized.capacity ▸ added.wasFree.1

/-- Buckets name nodes in use only. -/
theorem Represents.bucket_mem (represents : index.Represents capacity block order node)
    {bucket first : Nat} (bound : bucket < index.totalBuckets)
    (head : (block.buckets bucket).get = some first) : first ∈ order := by
  rcases (represents.chain bucket bound).start with empty | ⟨i, member, start⟩
  · rw [empty, Offset.get_none] at head
    contradiction
  · rw [start, Offset.get_some] at head
    cases head
    exact (mem_chainOf.mp member).1

/-- Nodes in use are linked to nodes in use only. -/
theorem Represents.next_mem (represents : index.Represents capacity block order node)
    (buckets : 0 < index.totalBuckets) {i next : Nat} (member : i ∈ order)
    (link : (node i).next.get = some next) : next ∈ order := by
  have linked := represents.chain (index.hash (node i).key) (Nat.mod_lt _ buckets)
  rcases linked.next_mem (mem_chainOf.mpr ⟨member, rfl⟩) with last | ⟨j, member', behind⟩
  · rw [last, Offset.get_none] at link
    contradiction
  · rw [behind, Offset.get_some] at link
    cases link
    exact (mem_chainOf.mp member').1

theorem Represents.mem_lt (represents : index.Represents capacity block order node) {i : Nat}
    (member : i ∈ order) : i < capacity := by
  have occupied := (represents.live i).mp member
  exact represents.slots.capacity ▸ occupied.1

theorem Represents.next_le (represents : index.Represents capacity block order node)
    (buckets : 0 < index.totalBuckets) {i : Nat} (member : i ∈ order) :
    (node i).next.value ≤ capacity := by
  cases value : (node i).next.value with
  | zero => exact Nat.zero_le _
  | succ next =>
    have link : (node i).next.get = some next := by simp [Offset.get, Offset.noneValue, value]
    exact represents.mem_lt (represents.next_mem buckets member link)

end Index

namespace RawIndex
variable {K : Type} {headers : HeaderLayout} {self : RawIndex K} {memory before after : ByteMemory}
  {capacity : Nat} {order : List Nat} {node : Nat → Node K} {block between : IndexBlock (Node K)}

/-- The buckets lie in front of the slots, and no size wraps around. -/
structure Placed (handle : RawIndex K) (capacity : Nat) : Prop where
  element : ∀ b < handle.totalBuckets,
    handle.buckets.asMutSlice.getElement b = some (b * bucketSize)
  behind : handle.totalBuckets * bucketSize ≤ handle.slots.basePtr
  nonempty : 0 < handle.totalBuckets
  counted : capacity < usizeModulus
  small : handle.layout.size < usizeModulus

theorem Placed.hash_lt (placed : Placed self capacity) (key : K) :
    self.hash key < self.totalBuckets :=
  Nat.mod_lt _ placed.nonempty

abbrev Spaced (headers : HeaderLayout) (self : RawIndex K) (memory : ByteMemory) : Prop :=
  RawSlots.Spaced headers self.slots memory self.layout.size

theorem byteView_sized (spaced : Spaced headers self memory) :
    (self.byteView headers memory).NodeSized self.layout :=
  ⟨spaced, fun _ => length_read⟩

/-- A call that has left this block, and no byte outside of the block changed. -/
structure Done (headers : HeaderLayout) (handle : RawIndex K) (capacity : Nat)
    (memory after : ByteMemory) (block : IndexBlock (Node K)) : Prop where
  view : handle.view headers after = block
  spaced : Spaced headers handle after
  frame : Frame 0 (Slots.slotOffset handle.slots.basePtr handle.layout.size capacity) memory after

theorem Done.refl (spaced : Spaced headers self memory) :
    Done headers self capacity memory memory (self.view headers memory) :=
  ⟨rfl, spaced, Frame.refl _ _ _⟩

theorem Done.trans (first : Done headers self capacity memory before between)
    (second : Done headers self capacity before after block) :
    Done headers self capacity memory after block :=
  ⟨second.view, second.spaced, first.frame.trans second.frame⟩

theorem Done.of_slots (placed : Placed self capacity) {slots : Slots UInt8}
    (done : RawSlots.Done headers self.slots capacity self.layout.size memory after slots) :
    Done headers self capacity memory after
      { self.view headers memory with slots := slots.cells self.layout } := by
  refine ⟨?_, done.spaced, done.frame.mono (Nat.zero_le _) (Nat.le_refl _)⟩
  have buckets : (self.view headers after).buckets = (self.view headers memory).buckets := by
    funext b
    simp only [RawIndex.view]
    split
    · rename_i inside
      rw [done.frame.readWord (.inl ?_)]
      have behind := placed.behind
      have element : (b + 1) * bucketSize ≤ self.totalBuckets * bucketSize :=
        Nat.mul_le_mul_right _ inside
      simp only [bucketSize, usizeSize] at *
      omega
    · rfl
  simp only [← buckets, ← done.view]
  rfl

/-! ### Buckets and nodes -/

theorem readBucket_eq (placed : Placed self capacity) {b : Nat} (inside : b < self.totalBuckets) :
    self.readBucket memory b = some ((self.view headers memory).buckets b) := by
  simp only [readBucket, placed.element b inside, Option.map_some, view, inside, if_true]

theorem writeBucket_done (placed : Placed self capacity) (spaced : Spaced headers self memory)
    {b : Nat} (inside : b < self.totalBuckets) {position : Offset}
    (small : position.value < usizeModulus) :
    ∃ after, self.writeBucket memory b position = some after ∧
      Done headers self capacity memory after
        (Index.setBucket (self.view headers memory) b position) := by
  have behind := placed.behind
  have ends : (b + 1) * bucketSize ≤ self.totalBuckets * bucketSize := Nat.mul_le_mul_right _ inside
  have changed : Frame (b * bucketSize) (b * bucketSize + usizeSize) memory
      (memory.writeWord (b * bucketSize) usizeSize position.value) :=
    .writeWord (Nat.le_refl _) (Nat.le_refl _)
  have front : b * bucketSize + usizeSize ≤ self.slots.basePtr := by
    simp only [bucketSize, usizeSize] at *
    omega
  have field : ∀ f, self.slots.field headers (memory.writeWord (b * bucketSize) usizeSize
      position.value) f = self.slots.field headers memory f := fun f =>
    changed.readWord (.inr (front.trans RawSlots.address_bounds.1))
  have slots : self.byteView headers (memory.writeWord (b * bucketSize) usizeSize position.value) =
      self.byteView headers memory := by
    simp only [byteView, RawSlots.view, RawSlots.headerView, field, Slots.mk.injEq, true_and]
    funext i
    refine RawSlots.slotView_of_frame changed (.inr (front.trans ?_))
    exact (Nat.le_add_right ..).trans (RawSlots.header_le_slotOffset ..)
  refine ⟨_, by rw [writeBucket, placed.element b inside]; rfl, ?_,
    (field .slotSize).trans spaced, changed.mono (Nat.zero_le _) ?_⟩
  · simp only [view, Index.setBucket, slots, IndexBlock.mk.injEq, and_true]
    funext other
    by_cases same : other = b
    · subst same
      rw [Function.update_self, if_pos inside, readWord_writeWord, RawSlots.word_eq small]
    · rw [Function.update_of_ne same]
      split
      · have apart : other * bucketSize + usizeSize ≤ b * bucketSize ∨
            b * bucketSize + usizeSize ≤ other * bucketSize := by
          simp only [bucketSize, usizeSize]
          omega
        rw [changed.readWord apart]
      · rfl
  · exact front.trans ((Nat.le_add_right ..).trans (RawSlots.header_le_slotOffset ..))

theorem readNode_eq (spaced : Spaced headers self memory) (i : Nat) :
    self.readNode headers memory i = self.shown.readNode (self.view headers memory) i := by
  have shown : self.shown.readNode (self.view headers memory) i =
      ((self.view headers memory).slots.get i).head? := rfl
  rw [shown]
  simp only [readNode, RawSlots.asPtr, spaced.getRecordMetadata_eq, Slots.get, view, Slots.cells,
    NodeBytes.cell, byteView, RawSlots.view, RawSlots.slotView]
  by_cases free : SlotMetadata.state memory
    (Slots.slotOffset self.slots.basePtr self.layout.size i) = .free
  · simp [free]
  · cases decoded : self.layout.ofBytes (memory.read (Slots.slotOffset self.slots.basePtr
      self.layout.size i + Slots.slotMetadataSize) self.layout.size) <;>
      simp [free, decoded, NodeLayout.cell]

section Nodes
variable (placed : Placed self capacity) (spaced : Spaced headers self memory)
include placed spaced

theorem insertNode_done {written : Node K} (small : written.Small)
    (slots : Slots.Sized capacity self.shown.layout.size (self.view headers memory).slots) :
    ∃ after, self.insertNode headers memory written =
        ((self.shown.insertNode (self.view headers memory) written).1, after) ∧
      Done headers self capacity memory after
        (self.shown.insertNode (self.view headers memory) written).2 := by
  have unused : (self.byteView headers memory).header.count <
      (self.byteView headers memory).header.capacity →
      ((self.byteView headers memory).slot (self.byteView headers memory).header.firstFree).state =
        .free := fun room => (slots.wellFormed.firstFree_free room).2
  have shown : self.shown.insertNode (self.view headers memory) written = Prod.map id _
      ((Slots.cells self.layout (self.byteView headers memory)).insert
        ((NodeLayout.cell K).toBytes written)) := Index.insertNode_eq written
  rw [← Slots.cells_insert small (byteView_sized spaced) unused, Prod.map_map] at shown
  have inside : ∀ {index store}, (self.byteView headers memory).insert (self.layout.toBytes written) =
      (.ok index, store) → index < capacity := by
    intro index store inserted
    rw [inserted] at shown
    exact Index.insertNode_lt slots shown
  obtain ⟨after, inserted, done⟩ := RawSlots.insert_done spaced placed.small inside
  rw [shown, Prod.map_fst, Prod.map_snd, insertNode]
  exact ⟨after, inserted, .of_slots placed done⟩

theorem updateNode_done {i : Nat} (inside : i < capacity) {written : Node K}
    (small : written.Small) :
    ∃ after, self.updateNode headers memory i written =
        ((self.shown.updateNode (self.view headers memory) i written).1, after) ∧
      Done headers self capacity memory after
        (self.shown.updateNode (self.view headers memory) i written).2 := by
  have shown : self.shown.updateNode (self.view headers memory) i written = Prod.map id _
      ((Slots.cells self.layout (self.byteView headers memory)).update i
        ((NodeLayout.cell K).toBytes written)) := Index.updateNode_eq i written
  rw [← Slots.cells_update small (byteView_sized spaced), Prod.map_map] at shown
  rw [shown, Prod.map_fst, Prod.map_snd, updateNode]
  obtain ⟨after, updated, done⟩ := RawSlots.update_done spaced placed.small inside
    (self.layout.toBytes written)
  exact ⟨after, updated, .of_slots placed done⟩

theorem removeNode_done {i : Nat} (inside : i < capacity) :
    Done headers self capacity memory (self.removeNode headers memory i)
      (Index.removeNode (self.view headers memory) i) := by
  have removed := Done.of_slots placed (RawSlots.remove_done spaced placed.counted inside)
  rw [Slots.cells_remove] at removed
  exact removed

variable (represents : self.shown.Represents capacity (self.view headers memory) order node)
include represents

omit placed in
theorem readNode_mem {i : Nat} (member : i ∈ order) :
    self.readNode headers memory i = some (node i) :=
  (readNode_eq spaced i).trans (represents.read i member)

/-! ### The loops -/

theorem walkToLast_cases (fuel : Nat) {i : Nat} (member : i ∈ order) :
    (self.walkToLast headers memory fuel i (node i) = none ∧
      self.shown.walkToLast (self.view headers memory) fuel i (node i) = none) ∨
    ∃ last ∈ order, self.walkToLast headers memory fuel i (node i) = some (last, node last) ∧
      self.shown.walkToLast (self.view headers memory) fuel i (node i) = some (last, node last) := by
  induction fuel generalizing i with
  | zero => exact .inl ⟨rfl, rfl⟩
  | succ fuel ih =>
    cases link : (node i).next.get with
    | none =>
      refine .inr ⟨i, member, ?_, ?_⟩
      · simp only [walkToLast, link]
      · simp only [Index.walkToLast, link]
    | some next =>
      have behind := represents.next_mem placed.nonempty member link
      simp only [walkToLast, Index.walkToLast, link, readNode_mem spaced represents behind,
        represents.read next behind, bind, Option.bind_some]
      exact ih behind

theorem walkToKey_eq [DecidableEq K] (key : K) (fuel : Nat) {i : Nat} (member : i ∈ order) :
    self.walkToKey headers memory key fuel i (node i) =
      self.shown.walkToKey (self.view headers memory) key fuel i (node i) := by
  induction fuel generalizing i with
  | zero => rfl
  | succ fuel ih =>
    simp only [walkToKey, Index.walkToKey]
    split
    · cases link : (node i).next.get with
      | none => rfl
      | some next =>
        have behind := represents.next_mem placed.nonempty member link
        simp only [readNode_mem spaced represents behind, represents.read next behind, bind,
          Option.bind_some]
        exact ih behind
    · rfl

variable (positions : ∀ i ∈ order, (node i).position < usizeModulus)
include positions

theorem walkToPredecessor_done {removing : Nat} (removed : removing ∈ order)
    {result : Except InMemoryTableError Unit} (fuel : Nat) {i : Nat} (member : i ∈ order)
    (called : self.shown.walkToPredecessor (self.view headers memory) removing (node removing) fuel i
      (node i) = some (result, block)) :
    ∃ after, self.walkToPredecessor headers memory removing (node removing) fuel i (node i) =
        some (result, after) ∧ Done headers self capacity memory after block := by
  induction fuel generalizing i with
  | zero => cases called
  | succ fuel ih =>
    cases link : (node i).next.get with
    | none =>
      simp only [Index.walkToPredecessor, link, Option.some.injEq, Prod.mk.injEq] at called
      obtain ⟨rfl, rfl⟩ := called
      exact ⟨memory, by simp only [walkToPredecessor, link], .refl spaced⟩
    | some next =>
      simp only [Index.walkToPredecessor, link] at called
      simp only [walkToPredecessor, link]
      split at called
      · rename_i found
        subst found
        have small : Node.Small { node i with next := (node next).next } :=
          ⟨positions i member, (represents.next_le placed.nonempty removed).trans_lt placed.counted⟩
        obtain ⟨between, updated, done⟩ :=
          updateNode_done placed spaced (represents.mem_lt member) small
        rw [if_pos rfl, updated]
        split at called <;> rename_i written <;> rw [written] at done ⊢ <;> cases called
        · exact ⟨between, rfl, done⟩
        · have last := removeNode_done placed done.spaced (represents.mem_lt removed)
          rw [done.view] at last
          exact ⟨_, rfl, done.trans last⟩
      · rename_i other
        have behind := represents.next_mem placed.nonempty member link
        rw [if_neg other]
        simp only [readNode_mem spaced represents behind, represents.read next behind, bind,
          Option.bind_some] at called ⊢
        exact ih behind called

/-! ### The calls -/

omit positions in
theorem search_eq [DecidableEq K] (key : K) :
    self.search headers memory key = self.shown.search (self.view headers memory) key := by
  have bucket : self.readBucket memory (self.hash key) =
      some ((self.view headers memory).buckets (self.shown.hash key)) :=
    readBucket_eq placed (placed.hash_lt key)
  simp only [search, bucket, bind, Option.bind_some, Index.search]
  cases head : ((self.view headers memory).buckets (self.shown.hash key)).get with
  | none => rfl
  | some first =>
    have member := represents.bucket_mem (placed.hash_lt key) head
    simp only [readNode_mem spaced represents member, represents.read first member,
      Option.bind_some]
    exact walkToKey_eq placed spaced represents key _ member

omit positions in
theorem get_eq [DecidableEq K] (key : K) :
    self.get headers memory key = self.shown.get (self.view headers memory) key := by
  rw [get, search_eq placed spaced represents, Index.get]

theorem insert_done (key : K) {position : Nat} (fits : position < usizeModulus)
    {result : Except InMemoryTableError Unit}
    (called : self.shown.insert (self.view headers memory) key position = some (result, block)) :
    ∃ after, self.insert headers memory key position = some (result, after) ∧
      Done headers self capacity memory after block := by
  have bucket : self.readBucket memory (self.hash key) =
      some ((self.view headers memory).buckets (self.shown.hash key)) :=
    readBucket_eq placed (placed.hash_lt key)
  have small : Node.Small ⟨key, position, Offset.none⟩ := ⟨fits, Nat.two_pow_pos 64⟩
  obtain ⟨between, inserted, done⟩ := insertNode_done placed spaced small represents.slots
  cases written : self.shown.insertNode (self.view headers memory) ⟨key, position, Offset.none⟩ with
  | mk outcome filled =>
  rw [written] at inserted done
  have linkable : ∀ nextNode, outcome = .ok nextNode →
      (Offset.some nextNode).value < usizeModulus := by
    rintro nextNode rfl
    exact (Nat.succ_le_of_lt (Index.insertNode_lt represents.slots written)).trans_lt placed.counted
  cases head : ((self.view headers memory).buckets (self.shown.hash key)).get with
  | none =>
    simp only [Index.insert, head, written] at called
    simp only [insert, bucket, head, inserted, bind, Option.bind_some]
    cases outcome with
    | error e =>
      cases called
      exact ⟨between, rfl, done⟩
    | ok nextNode =>
      cases called
      obtain ⟨after, linked, last⟩ := writeBucket_done placed done.spaced (placed.hash_lt key)
        (linkable nextNode rfl)
      rw [done.view] at last
      exact ⟨after, by simp only [linked, Option.bind_some], done.trans last⟩
  | some first =>
    have member := represents.bucket_mem (placed.hash_lt key) head
    simp only [Index.insert, head, represents.read first member, bind, Option.bind_some] at called
    simp only [insert, bucket, head, readNode_mem spaced represents member, bind, Option.bind_some]
    have walks := walkToLast_cases placed spaced represents
      (self.slots.field headers memory .capacity) member
    change _ ∨ ∃ last ∈ order, _ ∧ self.shown.walkToLast (self.view headers memory)
      (self.view headers memory).slots.header.capacity first (node first) = _ at walks
    obtain ⟨_, stuck⟩ | ⟨last, inside, walked, same⟩ := walks
    · exact absurd ((congrArg (Option.bind · _) stuck).symm.trans called) (by simp)
    simp only [same, written, Option.bind_some] at called
    simp only [walked, inserted, Option.bind_some]
    cases outcome with
    | error e =>
      cases called
      exact ⟨between, rfl, done⟩
    | ok nextNode =>
      have small : Node.Small { node last with next := Offset.some nextNode } :=
        ⟨positions last inside, linkable nextNode rfl⟩
      obtain ⟨after, updated, last⟩ :=
        updateNode_done placed done.spaced (represents.mem_lt inside) small
      rw [done.view, Option.some.inj called] at updated last
      exact ⟨after, congrArg some updated, done.trans last⟩

theorem remove_done [DecidableEq K] (key : K) {result : Except InMemoryTableError Unit}
    (called : self.shown.remove (self.view headers memory) key = some (result, block)) :
    ∃ after, self.remove headers memory key = some (result, after) ∧
      Done headers self capacity memory after block := by
  have bucket : self.readBucket memory (self.hash key) =
      some ((self.view headers memory).buckets (self.shown.hash key)) :=
    readBucket_eq placed (placed.hash_lt key)
  have searched := represents.search_eq placed.nonempty key
  simp only [Index.remove, searched, bind, Option.bind_some] at called
  simp only [remove, search_eq placed spaced represents, searched, bind, Option.bind_some]
  cases found : order.find? (fun i => (node i).key = key) with
  | none =>
    simp only [found, Option.map_none] at called ⊢
    cases called
    exact ⟨memory, rfl, .refl spaced⟩
  | some removing =>
    have removed := List.mem_of_find?_eq_some found
    simp only [found, Option.map_some] at called ⊢
    rw [bucket, Option.bind_some]
    cases head : ((self.view headers memory).buckets (self.shown.hash key)).get with
    | none => simp [head] at called
    | some first =>
      simp only [head, Option.bind_some] at called ⊢
      split at called
      · rename_i same
        cases called
        rw [if_pos same]
        have small := (represents.next_le placed.nonempty removed).trans_lt placed.counted
        obtain ⟨between, linked, done⟩ :=
          writeBucket_done placed spaced (placed.hash_lt key) small
        have last := removeNode_done placed done.spaced (represents.mem_lt removed)
        rw [done.view] at last
        exact ⟨_, by simp only [linked, Option.bind_some], done.trans last⟩
      · rename_i other
        have member := represents.bucket_mem (placed.hash_lt key) head
        rw [if_neg other]
        simp only [readNode_mem spaced represents member, represents.read first member,
          Option.bind_some] at called ⊢
        exact walkToPredecessor_done placed spaced represents positions removed _ member called

end Nodes

/-! ### A new index -/

section New
variable {layout : NodeBytes K} {hasher : K → Nat} {size : Nat}

def handle (layout : NodeBytes K) (hasher : K → Nat) (size : Nat) : RawIndex K :=
  { layout, hasher
    totalBuckets := InMemoryTable.totalBuckets size
    buckets := ⟨0, Index.totalBucketsSize size⟩
    slots := ⟨Index.totalBucketsSize size⟩ }

theorem checkAligned_start : checkAligned 0 headerAlignment = .ok () := rfl

theorem checkAligned_buckets (size : Nat) :
    checkAligned (Index.totalBucketsSize size) headerAlignment = .ok () := by
  simpa using checkAligned_nodes 0 size

theorem openExisting_eq (layout : NodeBytes K) (hasher : K → Nat) (size : Nat) :
    openExisting layout hasher size = .ok (handle layout hasher size) := by
  simp only [openExisting, Index.buckets_ok size checkAligned_start, RawSlots.openExisting,
    checkAligned_buckets]
  rfl

/-- Sizes that do not wrap around leave room for all buckets. -/
theorem totalBucketsSize_eq (noWrap : Slots.NoWrap (Index.totalBucketsSize size) size layout.size) :
    Index.totalBucketsSize size = InMemoryTable.totalBuckets size * bucketSize := by
  have modulus : usizeModulus = 18446744073709551616 := by decide
  have slots := noWrap.metadata_lt
  simp only [Slots.slotMetadataSize] at slots
  have converted : roundToEven 53 size ≤ size + 2 ^ 11 :=
    roundToEven_le (by decide) (Nat.lt_of_lt_of_le (show size < usizeModulus by omega) (by decide))
  have product : roundToEven 53 (3 * roundToEven 53 size) ≤ 3 * roundToEven 53 size + 2 ^ 13 :=
    roundToEven_le (by decide) (by omega)
  rw [Index.totalBucketsSize, wrappingMul, Nat.mul_comm, Nat.mod_eq_of_lt]
  unfold InMemoryTable.totalBuckets bucketSize
  omega

variable (positive : 1 ≤ size)
  (noWrap : Slots.NoWrap (Index.totalBucketsSize size) size layout.size)
include positive noWrap

theorem handle_placed : Placed (handle layout hasher size) size where
  element b inside := by
    have total := totalBucketsSize_eq noWrap
    have inside : b < InMemoryTable.totalBuckets size := inside
    simp only [handle, MemoryArray.asMutSlice, MemorySlice.getElement, total, Bucket.element,
      bucketSize, Nat.zero_add]
    rw [if_pos (by omega)]
  behind := (totalBucketsSize_eq noWrap).ge
  nonempty := totalBuckets_pos positive
  counted := by
    have slots := noWrap.metadata_lt
    simp only [Slots.slotMetadataSize] at slots
    omega
  small := (Nat.le_add_left ..).trans_lt (noWrap.slotSize_lt positive)

/-- A new index shows a new block and holds its place in it. -/
theorem new_done (memory : ByteMemory) :
    ∃ after nodes, new headers memory layout hasher size = (.ok (handle layout hasher size), after) ∧
      Done headers (handle layout hasher size) size memory after
        ((handle layout hasher size).shown.newBlock size nodes) := by
  have placed : Placed (handle layout hasher size) size := handle_placed positive noWrap
  have short := Index.totalSize_short positive noWrap
  have zeroed : Frame 0 (Slots.slotOffset (Index.totalBucketsSize size) layout.size size) memory
      (memory.write 0 (List.replicate (Index.totalSize size layout.size) 0)) :=
    .write (Nat.le_refl _) (by rw [List.length_replicate]; omega)
  obtain ⟨after, created, done⟩ : ∃ after, RawSlots.new headers _ _ _ _ = (.ok _, after) ∧ _ :=
    RawSlots.new_done (checkAligned_buckets size) placed.counted (noWrap.slotSize_lt positive)
      (memory.write 0 (List.replicate (Index.totalSize size layout.size) 0))
  have buckets : ((handle layout hasher size).view headers after).buckets = fun _ => ⟨0⟩ := by
    funext b
    simp only [view]
    split
    · rename_i inside
      have behind := placed.behind
      have ends : (b + 1) * bucketSize ≤ (handle layout hasher size).totalBuckets * bucketSize :=
        Nat.mul_le_mul_right _ inside
      have header := RawSlots.header_le_slotOffset (Index.totalBucketsSize size) layout.size size
      simp only [handle, bucketSize, Header.data] at behind ends header
      rw [done.frame.readWord (.inl (by simp only [bucketSize, usizeSize]; omega)), readWord_zero]
      intro i low
      have within : b * bucketSize + i < (List.replicate (Index.totalSize size layout.size)
          (0 : UInt8)).length := by
        simp only [List.length_replicate, bucketSize, usizeSize] at low ⊢
        omega
      rw [← Nat.zero_add (b * bucketSize + i), write_inside within, List.getElem_replicate]
    · rfl
  have slots : ((handle layout hasher size).view headers after).slots =
      Slots.new _ size (NodeLayout.cell K).size :=
    (congrArg (Slots.cells layout) done.view).trans (Slots.new_cells _ _)
  have shown : (handle layout hasher size).view headers after =
      (handle layout hasher size).shown.newBlock size _ :=
    congrArg₂ IndexBlock.mk buckets slots
  exact ⟨after, _, by simp only [new, Index.buckets_ok size checkAligned_start, created]; rfl, shown,
    done.spaced, zeroed.trans (done.frame.mono (Nat.zero_le _) (Nat.le_refl _))⟩

end New

end RawIndex
end InMemoryTable
