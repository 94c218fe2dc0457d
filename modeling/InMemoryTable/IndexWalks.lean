import InMemoryTable.Index
import InMemoryTable.Library.Chain

/-! The loops of the index along a chain of nodes. They differ only in the node at
which they stop: one walk with a condition stands for all three, and what it does on a
linked chain is proved once. -/
namespace InMemoryTable
open Chain

/-- The slots that a loop has read, and where it stopped; `none` means that it did not. -/
structure Walk (K : Type) where
  reads : List Nat
  stop : Option (Nat × Node K)

namespace Index
variable {K B : Type} (self : Index K B) (block : IndexBlock B)

/-- From node to node until `done` or until the chain ends, for at most `fuel` rounds. -/
def visit (done : Node K → Bool) : Nat → Nat → Node K → Walk K
  | 0, _, _ => { reads := [], stop := none }
  | fuel + 1, lastNodeIdx, lastNode =>
    if done lastNode then { reads := [], stop := some (lastNodeIdx, lastNode) }
    else
      match lastNode.next.get with
      | none => { reads := [], stop := some (lastNodeIdx, lastNode) }
      | some next =>
        match self.readNode block next with
        | none => { reads := [next], stop := none }
        | some node =>
          let walk := visit done fuel next node
          { walk with reads := next :: walk.reads }

/-- The branch of the loop of `remove` in which the next node is the one to remove. -/
def unlink (removingIdx : Nat) (removingNode : Node K) (lastNodeIdx : Nat) (lastNode : Node K) :
    Except InMemoryTableError Unit × IndexBlock B :=
  match self.updateNode block lastNodeIdx { lastNode with next := removingNode.next } with
  | (.error e, block) => (.error e, block)
  | (.ok (), block) => (.ok (), removeNode block removingIdx)

variable {self block} {fuel first : Nat} {firstNode : Node K}

/-! ### The loops are visits -/

theorem walkToLast_eq_visit : self.walkToLast block fuel first firstNode =
    (self.visit block (fun _ => false) fuel first firstNode).stop := by
  induction fuel generalizing first firstNode with
  | zero => rfl
  | succ fuel ih =>
    cases link : firstNode.next.get with
    | none => simp only [walkToLast, visit, link, Bool.false_eq_true, if_false]
    | some next =>
      cases read : self.readNode block next with
      | none => simp [walkToLast, visit, link, read]
      | some node => simp [walkToLast, visit, link, read, ih]

theorem walkToKey_eq_visit [DecidableEq K] {key : K} :
    self.walkToKey block key fuel first firstNode =
      (self.visit block (fun node => node.key = key) fuel first firstNode).stop.map
        (fun found => if found.2.key = key then some found else none) := by
  induction fuel generalizing first firstNode with
  | zero => rfl
  | succ fuel ih =>
    by_cases found : firstNode.key = key
    · simp [walkToKey, visit, found]
    · cases link : firstNode.next.get with
      | none => simp [walkToKey, visit, found, link]
      | some next =>
        cases read : self.readNode block next with
        | none => simp [walkToKey, visit, found, link, read]
        | some node => simp [walkToKey, visit, found, link, read, ih]

theorem walkToPredecessor_eq_visit {removing : Nat} {removingNode : Node K} :
    self.walkToPredecessor block removing removingNode fuel first firstNode =
      (self.visit block (fun node => node.next.get = some removing) fuel first firstNode).stop.map
        (fun last => if last.2.next.get = some removing
          then self.unlink block removing removingNode last.1 last.2 else (.ok (), block)) := by
  induction fuel generalizing first firstNode with
  | zero => rfl
  | succ fuel ih =>
    cases link : firstNode.next.get with
    | none => simp [walkToPredecessor, visit, link]
    | some next =>
      by_cases found : next = removing
      · subst found
        cases written : self.updateNode block first { firstNode with next := removingNode.next } with
        | mk result after => cases result <;> simp [walkToPredecessor, visit, link, unlink, written]
      · cases read : self.readNode block next with
        | none => simp [walkToPredecessor, visit, link, found, read]
        | some node => simp [walkToPredecessor, visit, link, found, read, ih]

/-! ### Along a linked chain -/

section Linked
variable {node : Nat → Node K} {rest : List Nat}

/-- From the first node of a chain the visit reads the nodes up to the first one with
`done`, or up to the last one. -/
theorem visit_spec {done : Node K → Bool}
    (read : ∀ i ∈ rest, self.readNode block i = some (node i))
    (linked : Linked Offset.some (fun i => (node i).next) (node first).next rest Offset.none)
    (enough : rest.length < fuel) :
    ∃ front last back, first :: rest = front ++ last :: back ∧
      self.visit block done fuel first (node first) =
        { reads := (front ++ [last]).tail, stop := some (last, node last) } ∧
      (∀ i ∈ front, done (node i) = false) ∧ (done (node last) = true ∨ back = []) := by
  induction rest generalizing first fuel with
  | nil =>
    obtain ⟨fuel, rfl⟩ : ∃ less, fuel = less + 1 := ⟨fuel - 1, by simp at enough; omega⟩
    have stop : (node first).next = Offset.none := linked
    refine ⟨[], first, [], rfl, ?_, by simp, .inr rfl⟩
    by_cases here : done (node first) = true
    · simp [visit, here]
    · simp [visit, here, stop]
  | cons second rest ih =>
    obtain ⟨fuel, rfl⟩ : ∃ less, fuel = less + 1 := ⟨fuel - 1, by omega⟩
    obtain ⟨link, linked⟩ := linked
    by_cases here : done (node first) = true
    · exact ⟨[], first, second :: rest, rfl, by simp [visit, here], by simp, .inl here⟩
    · obtain ⟨front, last, back, split, visited, passed, stopped⟩ :=
        ih (fun i member => read i (List.mem_cons_of_mem _ member)) linked
          (by simp at enough; omega)
      refine ⟨first :: front, last, back, by rw [List.cons_append, split], ?_,
        List.forall_mem_cons.mpr ⟨Bool.eq_false_iff.mpr here, passed⟩, stopped⟩
      have entered : second :: (front ++ [last]).tail = front ++ [last] := by
        cases front with
        | nil => cases split; rfl
        | cons head tail => cases split; rfl
      simp [visit, here, link, read second List.mem_cons_self, visited, entered]

/-- The visit stops at the first node with `done`. -/
theorem visit_first {done : Node K → Bool} {i : Nat}
    (read : ∀ i ∈ rest, self.readNode block i = some (node i))
    (linked : Linked Offset.some (fun i => (node i).next) (node first).next rest Offset.none)
    (enough : rest.length < fuel)
    (found : (first :: rest).find? (fun i => done (node i)) = some i) :
    (self.visit block done fuel first (node first)).stop = some (i, node i) := by
  obtain ⟨front, last, back, split, visited, passed, stopped⟩ :=
    @visit_spec _ _ self block fuel first node rest done read linked enough
  have skipped : front.find? (fun i => done (node i)) = none := by
    simpa using passed
  rw [split, List.find?_append, skipped, Option.none_or] at found
  rw [visited]
  rcases stopped with here | rfl
  · simp only [List.find?_cons, here] at found
    cases found
    rfl
  · have here := List.find?_some found
    rw [List.mem_singleton.mp (List.mem_of_find?_eq_some found)]

theorem walkToLast_spec {last : Nat} {front : List Nat}
    (read : ∀ i ∈ rest, self.readNode block i = some (node i))
    (linked : Linked Offset.some (fun i => (node i).next) (node first).next rest Offset.none)
    (enough : rest.length < fuel) (split : first :: rest = front ++ [last]) :
    self.walkToLast block fuel first (node first) = some (last, node last) := by
  obtain ⟨front', last', back, split', visited, _, never | rfl⟩ :=
    @visit_spec _ _ self block fuel first node rest (fun _ => false) read linked enough
  · cases never
  · obtain ⟨_, same⟩ := List.append_inj' (split'.symm.trans split) rfl
    cases same
    rw [walkToLast_eq_visit, visited]

theorem walkToKey_spec [DecidableEq K] (key : K)
    (read : ∀ i ∈ rest, self.readNode block i = some (node i))
    (linked : Linked Offset.some (fun i => (node i).next) (node first).next rest Offset.none)
    (enough : rest.length < fuel) :
    self.walkToKey block key fuel first (node first) =
      some (((first :: rest).find? (fun i => (node i).key = key)).map (fun i => (i, node i))) := by
  rw [walkToKey_eq_visit]
  cases found : (first :: rest).find? (fun i => (node i).key = key) with
  | some i =>
    have same : (node i).key = key := by simpa using List.find?_some found
    rw [visit_first read linked enough found]
    simp [same]
  | none =>
    obtain ⟨front, last, back, split, visited, _⟩ := @visit_spec _ _ self block fuel first node rest
      (fun node => node.key = key) read linked enough
    have other : (node last).key ≠ key := by
      simpa using List.find?_eq_none.mp found last (by simp [split])
    rw [visited]
    simp [other]

/-- Along a chain without repetitions only one node is linked to `removing`. -/
theorem find_predecessor {before removing : Nat} {front back : List Nat} {start stop : Offset}
    (linked : Linked Offset.some (fun i => (node i).next) start
      (front ++ before :: removing :: back) stop)
    (once : removing ∉ front) (distinct : before ≠ removing) :
    (front ++ before :: removing :: back).find? (fun i => (node i).next.get = some removing) =
      some before := by
  induction front generalizing start with
  | nil =>
    obtain ⟨_, link, _⟩ := linked
    rw [List.nil_append, List.find?_cons_of_pos (by simp [link])]
  | cons head tail ih =>
    simp only [List.mem_cons, not_or] at once
    have other : (node head).next.get ≠ some removing := by
      obtain ⟨_, linked⟩ := linked
      cases tail with
      | nil =>
        obtain ⟨link, _⟩ := linked
        simpa [link] using distinct
      | cons second tail =>
        obtain ⟨link, _⟩ := linked
        simp only [List.mem_cons, not_or] at once
        simpa [link] using Ne.symm once.2.1
    rw [List.cons_append, List.find?_cons_of_neg (by simpa using other)]
    exact ih linked.2 once.2

/-- The loop of `remove` finds the predecessor, wherever in the chain it is. -/
theorem walkToPredecessor_spec {after : IndexBlock B} {before removing : Nat}
    {front back : List Nat} (removingNode : Node K)
    (read : ∀ i ∈ rest, self.readNode block i = some (node i))
    (linked : Linked Offset.some (fun i => (node i).next) (node first).next rest Offset.none)
    (enough : rest.length < fuel) (split : first :: rest = front ++ before :: removing :: back)
    (once : removing ∉ front) (distinct : before ≠ removing)
    (rewritten : self.updateNode block before { node before with next := removingNode.next } =
      (.ok (), after)) :
    self.walkToPredecessor block removing removingNode fuel first (node first) =
      some (.ok (), removeNode after removing) := by
  have whole : Linked Offset.some (fun i => (node i).next) (Offset.some first)
      (front ++ before :: removing :: back) Offset.none := by
    rw [← split]
    exact ⟨rfl, linked⟩
  have found := find_predecessor whole once distinct
  rw [← split] at found
  have link : (node before).next.get = some removing := by simpa using List.find?_some found
  rw [walkToPredecessor_eq_visit, visit_first read linked enough found, Option.map_some,
    if_pos link, unlink, rewritten]

end Linked
end Index
end InMemoryTable
