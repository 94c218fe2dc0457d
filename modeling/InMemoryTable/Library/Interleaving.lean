import InMemoryTable.Library.Transition
import Mathlib.Logic.Function.Basic

/-! Interleavings of any number of clients over one shared memory. The effect of
a step relates the shared memory and the local state of one client before and
after; the choice of the client that moves is free. -/
namespace Interleaving
open Transition
variable {S E ι L M : Type}

structure Config (ι S L : Type) where
  shared : S
  client : ι → L

namespace Config
variable (config : Config ι S L)

/-- The configuration with every local state replaced by a view of it. -/
def map (view : L → M) : Config ι S M := ⟨config.shared, fun c => view (config.client c)⟩

variable [DecidableEq ι] (c d : ι) (shared : S) (own : L)

/-- The configuration after client `c` moved to `own` and the memory to `shared`. -/
def moved : Config ι S L := ⟨shared, Function.update config.client c own⟩

@[simp] theorem moved_shared : (config.moved c shared own).shared = shared := rfl

@[simp] theorem moved_self : (config.moved c shared own).client c = own :=
  Function.update_self ..

theorem moved_other {d : ι} (different : d ≠ c) :
    (config.moved c shared own).client d = config.client d :=
  Function.update_of_ne different ..

/-- A property of all clients after a step: of the one that moved, and of the others. -/
theorem moved_forall {P : ι → L → Prop} (mover : P c own)
    (others : ∀ d, d ≠ c → P d (config.client d)) :
    ∀ d, P d ((config.moved c shared own).client d) := by
  intro d
  by_cases same : d = c
  · subst same
    rwa [moved_self]
  · rw [moved_other _ _ _ _ same]
    exact others d same

/-- A property of at most one client, after a step. -/
theorem moved_unique {P : L → Prop}
    (unique : ∀ d e, P (config.client d) → P (config.client e) → d = e)
    (mover : P own → ∀ d ≠ c, ¬ P (config.client d)) :
    ∀ d e, P ((config.moved c shared own).client d) → P ((config.moved c shared own).client e) →
      d = e := by
  intro d e first second
  by_cases first_moved : d = c
  · by_cases second_moved : e = c
    · exact first_moved.trans second_moved.symm
    · subst first_moved
      rw [moved_self] at first
      rw [moved_other _ _ _ _ second_moved] at second
      exact absurd second (mover first e second_moved)
  · rw [moved_other _ _ _ _ first_moved] at first
    by_cases second_moved : e = c
    · subst second_moved
      rw [moved_self] at second
      exact absurd first (mover second d first_moved)
    · rw [moved_other _ _ _ _ second_moved] at second
      exact unique d e first second

theorem moved_comp {R : Type} (view : L → R) :
    (fun d => view ((config.moved c shared own).client d)) =
      Function.update (fun d => view (config.client d)) c (view own) := by
  funext d
  by_cases same : d = c
  · subst same
    simp
  · rw [moved_other _ _ _ _ same, Function.update_of_ne same]

@[simp] theorem moved_moved (later : S) (next : L) :
    (config.moved c shared own).moved c later next = config.moved c later next := by
  simp [moved]

theorem map_moved (view : L → M) :
    (config.moved c shared own).map view = (config.map view).moved c shared (view own) := by
  simp only [map, moved_comp, moved_shared]
  rfl

end Config

variable [DecidableEq ι]

/-- One step of one client; the others keep their local states. -/
inductive Step (effect : S → L → E → S → L → Prop) :
    Config ι S L → ι × E → Config ι S L → Prop where
  | move {config : Config ι S L} {c : ι} {event : E} {shared : S} {own : L} :
      effect config.shared (config.client c) event shared own →
      Step effect config (c, event) (config.moved c shared own)

/-- The client that has just moved moves again. -/
theorem Step.again {effect : S → L → E → S → L → Prop} {config : Config ι S L} {c : ι} {event : E}
    {shared later : S} {own next : L} (moves : effect shared own event later next) :
    Step effect (config.moved c shared own) (c, event) (config.moved c later next) := by
  have again : Step effect (config.moved c shared own) (c, event)
      ((config.moved c shared own).moved c later next) := .move (by simpa using moves)
  simpa using again

/-- A run seen through a view of the local states, where `valid` is an invariant
of each local state. -/
theorem run_map {concrete : S → L → E → S → L → Prop} {abstract : S → M → E → S → M → Prop}
    {allowed : Config ι S M → ι × E → Prop} (view : L → M) (valid : L → Prop)
    (simulates : ∀ {s l e t m}, valid l → concrete s l e t m →
      abstract s (view l) e t (view m) ∧ valid m)
    {config last : Config ι S L} {labels : List (ι × E)}
    (run : Run (Guarded (Step concrete) (fun config label => allowed (config.map view) label))
      config labels last)
    (initial : ∀ c, valid (config.client c)) :
    Run (Guarded (Step abstract) allowed) (config.map view) labels (last.map view) := by
  induction run with
  | refl => exact .refl _
  | next head tail ih =>
    obtain ⟨⟨moves⟩, guarded⟩ := head
    obtain ⟨simulated, kept⟩ := simulates (initial _) moves
    refine .next ⟨?_, guarded⟩ (ih ?_)
    · rw [Config.map_moved]
      exact .move simulated
    · exact Config.moved_forall _ _ _ _ kept (fun d _ => initial d)

/-! ### A coarser view -/

/-- The configuration seen through views of the shared memory and of the local states. -/
def Config.view {S' : Type} (memory : S → S') (view : L → M) (config : Config ι S L) :
    Config ι S' M :=
  ⟨memory config.shared, fun c => view (config.client c)⟩

/-- The events of a trace that the coarser view sees. -/
def visible {F : Type} (event : E → Option F) (trace : List (ι × E)) : List (ι × F) :=
  trace.filterMap (fun label => (event label.2).map (label.1, ·))

section View
variable {S' F : Type} {concrete : S → L → E → S → L → Prop} {abstract : S' → M → F → S' → M → Prop}
  {memory : S → S'} {view : L → M} {event : E → Option F} {config last : Config ι S L}
  {trace : List (ι × E)}

theorem Config.view_moved (memory : S → S') (view : L → M) (config : Config ι S L) (c : ι)
    (shared : S) (own : L) :
    (config.moved c shared own).view memory view =
      (config.view memory view).moved c (memory shared) (view own) := by
  simp only [Config.view, Config.moved_comp, Config.moved_shared]
  rfl

/-- If every step is seen as a step or not at all, every run is seen as a run. -/
theorem run_view
    (simulates : ∀ {s l e t m}, concrete s l e t m →
      (event e = none ∧ memory t = memory s ∧ view m = view l) ∨
      ∃ f, event e = some f ∧ abstract (memory s) (view l) f (memory t) (view m))
    (run : Run (Step concrete) config trace last) :
    Run (Step abstract) (config.view memory view) (visible event trace)
      (last.view memory view) := by
  induction run with
  | refl => exact .refl _
  | @next config label middle rest last head tail ih =>
    obtain ⟨moves⟩ := head
    rename_i c e shared own
    rw [Config.view_moved] at ih
    obtain ⟨unseen, same, own'⟩ | ⟨f, seen, stepped⟩ := simulates moves
    · have still : (config.view memory view).moved c (memory shared) (view own) =
          config.view memory view := by
        rw [same, own']
        simp only [Config.moved, Config.view, Function.update_eq_self_iff.mpr]
      rw [still] at ih
      simpa [visible, unseen] using ih
    · have seen : visible event ((c, e) :: rest) = (c, f) :: visible event rest := by
        simp [visible, seen]
      rw [seen]
      exact .next (.move stepped) ih

/-- Forward simulation, client by client: if every step is a step of the abstract system
that shows the same, or shows nothing and changes nothing there, every run is a run of
the abstract system that shows the same in the same order. -/
theorem run_simulates {A P M O : Type} {abstract : A → P → M → A → P → Prop} {view : L → P}
    {shown : E → Option O} {told : M → Option O} (related : Config ι S L → A → Prop)
    (simulates : ∀ {config : Config ι S L} {c event shared own state}, related config state →
      concrete config.shared (config.client c) event shared own →
      ∃ later, related (config.moved c shared own) later ∧
        ((shown event = none ∧ later = state ∧ view own = view (config.client c)) ∨
          ∃ moment, told moment = shown event ∧
            abstract state (view (config.client c)) moment later (view own)))
    (run : Run (Step concrete) config trace last) {state : A} (initial : related config state) :
    ∃ moments later,
      Run (Step abstract) ⟨state, fun c => view (config.client c)⟩ moments
        ⟨later, fun c => view (last.client c)⟩ ∧
      visible told moments = visible shown trace ∧ related last later := by
  induction run generalizing state with
  | refl => exact ⟨[], state, .refl _, rfl, initial⟩
  | @next config label middle rest last head tail ih =>
    obtain ⟨moves⟩ := head
    rename_i c event shared own
    obtain ⟨between, related', matched⟩ := simulates initial moves
    obtain ⟨moments, later, run', same, related'⟩ := ih related'
    rw [Config.moved_comp] at run'
    rcases matched with ⟨unseen, rfl, still⟩ | ⟨moment, tells, moved⟩
    · rw [still, Function.update_eq_self] at run'
      refine ⟨moments, later, run', ?_, related'⟩
      rw [same]
      simp [visible, unseen]
    · refine ⟨(c, moment) :: moments, later, .next (.move moved) run', ?_, related'⟩
      simp only [visible, List.filterMap_cons, tells] at same ⊢
      rw [same]

end View

/-- The effect of a deterministic client. -/
def Computes (next : S → L → Option (E × S × L)) (s : S) (l : L) (e : E) (t : S) (m : L) : Prop :=
  next s l = some (e, t, m)

/-- Executing a schedule: the clients move in the order given, as long as every
step is `fine`. -/
def execute (next : S → L → Option (E × S × L)) (fine : Config ι S L → ι × E → Bool) :
    Config ι S L → List ι → Option (List (ι × E) × Config ι S L)
  | config, [] => some ([], config)
  | config, c :: schedule =>
    match next config.shared (config.client c) with
    | none => none
    | some (event, shared, own) =>
      if fine config (c, event) then
        match execute next fine (config.moved c shared own) schedule with
        | none => none
        | some (labels, last) => some ((c, event) :: labels, last)
      else none

theorem execute_run {next : S → L → Option (E × S × L)} {fine : Config ι S L → ι × E → Bool}
    {config last : Config ι S L} {schedule : List ι} {labels : List (ι × E)}
    (executed : execute next fine config schedule = some (labels, last)) :
    Run (Guarded (Step (Computes next)) (fun config label => fine config label = true))
      config labels last := by
  induction schedule generalizing config labels with
  | nil =>
    cases executed
    exact .refl _
  | cons c schedule ih =>
    simp only [execute] at executed
    split at executed
    · contradiction
    · rename_i event shared own moved
      split at executed
      · rename_i allowed
        split at executed
        · contradiction
        · rename_i rest final remaining
          cases executed
          exact .next ⟨.move moved, allowed⟩ (ih remaining)
      · contradiction

/-- A schedule whose result passes a check exhibits a run to such a result. -/
theorem exists_run (next : S → L → Option (E × S × L)) (fine : Config ι S L → ι × E → Bool)
    (config : Config ι S L) (schedule : List ι) (check : List (ι × E) → Config ι S L → Bool)
    (checked :
      (execute next fine config schedule).any (fun result => check result.1 result.2) = true) :
    ∃ labels last, check labels last = true ∧
      Run (Guarded (Step (Computes next)) (fun config label => fine config label = true))
        config labels last := by
  cases executed : execute next fine config schedule with
  | none => simp [executed] at checked
  | some result =>
    rw [executed] at checked
    exact ⟨result.1, result.2, checked, execute_run executed⟩

end Interleaving
