import Mathlib.Data.List.Nodup

/-! First-in-first-out multimaps: lists of entries in insertion order. A lookup
answers with the earliest entry of a key, a removal deletes that entry. -/
namespace FifoMultimap
variable {K V : Type} [DecidableEq K] {entries : List (K × V)} {k other : K} {v : V}

def get (entries : List (K × V)) (k : K) : Option V :=
  (entries.find? (fun e => e.1 = k)).map Prod.snd

def remove (entries : List (K × V)) (k : K) : List (K × V) :=
  entries.eraseP (fun e => e.1 = k)

@[simp] theorem get_nil : get ([] : List (K × V)) k = none := rfl

theorem get_cons {e : K × V} :
    get (e :: entries) k = if e.1 = k then some e.2 else get entries k := by
  by_cases same : e.1 = k <;> simp [get, same]

theorem remove_cons {e : K × V} :
    remove (e :: entries) k = if e.1 = k then entries else e :: remove entries k := by
  by_cases same : e.1 = k <;> simp [remove, same]

theorem get_eq_none : get entries k = none ↔ ∀ e ∈ entries, e.1 ≠ k := by
  simp [get]

theorem mem_of_get (found : get entries k = some v) : (k, v) ∈ entries := by
  obtain ⟨e, first, rfl⟩ := Option.map_eq_some_iff.mp found
  have same : e.1 = k := by simpa using List.find?_some first
  subst same
  exact List.mem_of_find?_eq_some first

theorem get_isSome_of_mem (member : (k, v) ∈ entries) : (get entries k).isSome := by
  rw [Option.isSome_iff_ne_none, ne_eq, get_eq_none]
  exact fun none => none _ member rfl

theorem get_append (last : K × V) :
    get (entries ++ [last]) k = (get entries k).or (if last.1 = k then some last.2 else none) := by
  induction entries with
  | nil => simp [get_cons]
  | cons e rest ih =>
    rw [List.cons_append, get_cons, ih, get_cons]
    split <;> simp

theorem get_append_other {last : K × V} (different : last.1 ≠ k) :
    get (entries ++ [last]) k = get entries k := by
  rw [get_append, if_neg different, Option.or_none]

/-- Appending an entry of an absent key keeps the keys distinct. -/
theorem nodup_append (nodup : (entries.map Prod.fst).Nodup) (absent : get entries k = none) :
    ((entries ++ [(k, v)]).map Prod.fst).Nodup := by
  rw [List.map_append]
  apply List.Nodup.append nodup (List.nodup_singleton _)
  rintro other member new
  obtain rfl : other = k := by simpa using new
  obtain ⟨entry, present, rfl⟩ := List.mem_map.mp member
  exact get_eq_none.mp absent entry present rfl

theorem get_remove_other (different : k ≠ other) :
    get (remove entries k) other = get entries other := by
  induction entries with
  | nil => rfl
  | cons e rest ih =>
    rw [remove_cons]
    split
    · rename_i same
      rw [get_cons, if_neg (by rw [same]; exact different)]
    · rw [get_cons, ih, get_cons]

theorem get_remove_self (nodup : (entries.map Prod.fst).Nodup) :
    get (remove entries k) k = none := by
  induction entries with
  | nil => rfl
  | cons e rest ih =>
    rw [List.map_cons, List.nodup_cons] at nodup
    rw [remove_cons]
    split
    · rename_i same
      subst same
      exact get_eq_none.mpr (fun other member same =>
        nodup.1 (same ▸ List.mem_map_of_mem (f := Prod.fst) member))
    · rename_i different
      rw [get_cons, if_neg different, ih nodup.2]

theorem length_remove (found : get entries k = some v) :
    (remove entries k).length + 1 = entries.length := by
  have member := mem_of_get found
  rw [remove, List.length_eraseP_of_mem member (by simp)]
  exact Nat.sub_add_cancel (List.length_pos_of_mem member)

theorem remove_of_get_none (absent : get entries k = none) : remove entries k = entries := by
  apply List.eraseP_of_forall_not
  intro e member
  simpa using get_eq_none.mp absent e member

/-! ### The entries of one key -/

/-- The values of a key, in insertion order. -/
def queue (entries : List (K × V)) (k : K) : List V :=
  (entries.filter (fun e => e.1 = k)).map Prod.snd

theorem queue_cons {e : K × V} :
    queue (e :: entries) k = if e.1 = k then e.2 :: queue entries k else queue entries k := by
  by_cases same : e.1 = k <;> simp [queue, same]

theorem get_eq_head? : get entries k = (queue entries k).head? := by
  induction entries with
  | nil => rfl
  | cons e rest ih =>
    rw [get_cons, queue_cons, ih]
    split <;> rfl

theorem queue_of_nodup (nodup : (entries.map Prod.fst).Nodup) :
    queue entries k = (get entries k).toList := by
  induction entries with
  | nil => rfl
  | cons e rest ih =>
    obtain ⟨fresh, nodup⟩ := List.nodup_cons.mp nodup
    rw [queue_cons, get_cons, ih nodup]
    split
    · rename_i same
      have absent : get rest k = none :=
        get_eq_none.mpr (fun other member same' =>
          fresh (by rw [same, ← same']; exact List.mem_map_of_mem member))
      rw [absent]
      rfl
    · rfl

theorem mem_queue : v ∈ queue entries k ↔ (k, v) ∈ entries := by
  simp [queue]

theorem queue_append (last : K × V) :
    queue (entries ++ [last]) k = queue entries k ++ if last.1 = k then [last.2] else [] := by
  by_cases same : last.1 = k <;> simp [queue, same]

theorem queue_remove_self : queue (remove entries k) k = (queue entries k).tail := by
  induction entries with
  | nil => rfl
  | cons e rest ih =>
    rw [remove_cons, queue_cons]
    split
    · rfl
    · rename_i different
      rw [queue_cons, if_neg different, ih]

theorem queue_remove_other (different : k ≠ other) :
    queue (remove entries k) other = queue entries other := by
  induction entries with
  | nil => rfl
  | cons e rest ih =>
    rw [remove_cons, queue_cons]
    split
    · rename_i same
      rw [if_neg (by rw [same]; exact different)]
    · rw [queue_cons, ih]

end FifoMultimap
