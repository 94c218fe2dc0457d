import Mathlib.Data.List.Nodup
import Mathlib.Logic.Function.Basic

/-! Intrusive singly linked lists. `ptr` is the pointer value that designates a
node and `next` reads the link stored in a node; pointers and nodes may be of
different types, so that the end marker need not designate any node. -/
namespace Chain
variable {α β : Type}

/-- Following `next` from the pointer `p` visits exactly `nodes` and then
arrives at the pointer `q`. -/
def Linked (ptr next : α → β) : β → List α → β → Prop
  | p, [], q => p = q
  | p, x :: rest, q => p = ptr x ∧ Linked ptr next (next x) rest q

variable {ptr next next' : α → β} {p q r : β} {xs ys : List α} {a x : α}

@[simp] theorem linked_nil : Linked ptr next p [] q ↔ p = q := Iff.rfl

@[simp] theorem linked_cons :
    Linked ptr next p (x :: xs) q ↔ p = ptr x ∧ Linked ptr next (next x) xs q := Iff.rfl

theorem linked_append :
    Linked ptr next p (xs ++ ys) q ↔ ∃ m, Linked ptr next p xs m ∧ Linked ptr next m ys q := by
  induction xs generalizing p with
  | nil => simp
  | cons x rest ih =>
    simp only [List.cons_append, linked_cons, ih]
    constructor
    · rintro ⟨start, m, first, second⟩
      exact ⟨m, ⟨start, first⟩, second⟩
    · rintro ⟨m, ⟨start, first⟩, second⟩
      exact ⟨start, m, first, second⟩

/-- Only the links of the visited nodes matter. -/
theorem Linked.congr (linked : Linked ptr next p xs q) (same : ∀ x ∈ xs, next' x = next x) :
    Linked ptr next' p xs q := by
  induction xs generalizing p with
  | nil => exact linked
  | cons x rest ih =>
    refine ⟨linked.1, ?_⟩
    rw [same x List.mem_cons_self]
    exact ih linked.2 (fun y hy => same y (List.mem_cons_of_mem _ hy))

/-- Pushing `a` in front: its link takes the old start. -/
theorem Linked.push (linked : Linked ptr next p xs q) (link : next' a = p)
    (same : ∀ x ∈ xs, next' x = next x) : Linked ptr next' (ptr a) (a :: xs) q :=
  ⟨rfl, link ▸ linked.congr same⟩

/-- Appending `x` behind the last node `a`: `a` takes a link to `x`. -/
theorem Linked.append_last (linked : Linked ptr next p (xs ++ [a]) q)
    (last : next' a = ptr x) (stop : next' x = r) (same : ∀ y ∈ xs, next' y = next y) :
    Linked ptr next' p (xs ++ [a, x]) r := by
  obtain ⟨m, front, rfl, _⟩ := linked_append.mp linked
  exact linked_append.mpr ⟨ptr a, front.congr same, rfl, last, stop⟩

/-- Neighbors in the list are linked. -/
theorem Linked.next_eq (linked : Linked ptr next p (xs ++ a :: x :: ys) q) : next a = ptr x := by
  obtain ⟨m, _, _, link, _⟩ := linked_append.mp linked
  exact link

/-- The pointer in front designates one of the nodes, or there are none. -/
theorem Linked.start (linked : Linked ptr next p xs q) : p = q ∨ ∃ x ∈ xs, p = ptr x := by
  cases xs with
  | nil => exact .inl linked
  | cons x rest => exact .inr ⟨x, List.mem_cons_self, linked.1⟩

/-- The link of a node designates one of the nodes, or it is the last one. -/
theorem Linked.next_mem (linked : Linked ptr next p xs q) (member : a ∈ xs) :
    next a = q ∨ ∃ x ∈ xs, next a = ptr x := by
  obtain ⟨front, back, rfl⟩ := List.append_of_mem member
  obtain ⟨m, _, _, behind⟩ := linked_append.mp linked
  rcases behind.start with last | ⟨x, inside, link⟩
  · exact .inl last
  · exact .inr ⟨x, List.mem_append_right _ (List.mem_cons_of_mem _ inside), link⟩

/-- Unlinking `x`: its predecessor `a` takes over its link. -/
theorem Linked.unlink (linked : Linked ptr next p (xs ++ a :: x :: ys) q)
    (bypass : next' a = next x) (same : ∀ y ∈ xs ++ ys, next' y = next y) :
    Linked ptr next' p (xs ++ a :: ys) q := by
  obtain ⟨m, front, rfl, _, back⟩ := linked_append.mp linked
  refine linked_append.mpr ⟨ptr a, front.congr (fun y hy => same y ?_), rfl, ?_⟩
  · exact List.mem_append_left _ hy
  · rw [bypass]
    exact back.congr (fun y hy => same y (List.mem_append_right _ hy))

end Chain
