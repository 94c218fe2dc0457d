import InMemoryTable.Library.Interleaving

/-! Shared objects whose calls take effect at instants. Between its invocation
and its return a call changes the state of the object in one or more atomic
effects; nothing else of it can be observed. -/
namespace Linearization
open Transition Interleaving
variable {A P C R : Type}

/-- Where a client of an object is; `P` is what its call has still to do. -/
inductive Place (P C R : Type) where
  | idle
  | running (work : P)
  | returning (call : C) (reply : R)

inductive Moment (C R : Type) where
  | called (call : C)
  | effect
  | replied (call : C) (reply : R)

/-- What the clients see: a call, or the reply to a call. -/
def Moment.shown : Moment C R → Option (C × Option R)
  | called call => some (call, none)
  | effect => none
  | replied call reply => some (call, some reply)

/-- A call starts at some place, and each effect leads to the next one. -/
structure Object (A P C R : Type) where
  start : C → Place P C R
  effect : A → P → A → Place P C R → Prop

namespace Object

/-- One step of a client of the object. -/
inductive Moves (object : Object A P C R) :
    A → Place P C R → Moment C R → A → Place P C R → Prop where
  | called {state : A} (call : C) :
      Moves object state .idle (.called call) state (object.start call)
  | effect {state later : A} {work : P} {place : Place P C R} :
      object.effect state work later place →
      Moves object state (.running work) .effect later place
  | replied {state : A} {call : C} {reply : R} :
      Moves object state (.returning call reply) (.replied call reply) state .idle

/-- What the object sees of a step that shows `shown`: nothing, or a step of its own. -/
inductive Sees (object : Object A P C R) (state : A) (place : Place P C R) :
    Option (C × Option R) → A → Place P C R → Prop where
  | nothing {later : A} {next : Place P C R} : later = state → next = place →
      Sees object state place none later next
  | moment {moment : Moment C R} {later : A} {next : Place P C R} :
      object.Moves state place moment later next →
      Sees object state place moment.shown later next

variable {S L E ι : Type} [DecidableEq ι] {concrete : S → L → E → S → L → Prop}
  {config last : Config ι S L} {trace : List (ι × E)} {state : A}

/-- If the object sees every step, every run of the clients is a run of the
object with the same calls and replies in the same order. -/
theorem linearizes (object : Object A P C R) (view : L → Place P C R)
    (shown : E → Option (C × Option R)) (related : Config ι S L → A → Prop)
    (sees : ∀ {config : Config ι S L} {c event shared own state}, related config state →
      concrete config.shared (config.client c) event shared own →
      ∃ later, related (config.moved c shared own) later ∧
        object.Sees state (view (config.client c)) (shown event) later (view own))
    (run : Run (Step concrete) config trace last) (initial : related config state) :
    ∃ moments later,
      Run (Step object.Moves) ⟨state, fun c => view (config.client c)⟩ moments
        ⟨later, fun c => view (last.client c)⟩ ∧
      visible Moment.shown moments = visible shown trace ∧ related last later := by
  refine run_simulates related (fun {config c event shared own state} related moves => ?_) run initial
  obtain ⟨later, related, seen⟩ := sees related moves
  refine ⟨later, related, ?_⟩
  generalize shown event = answer at seen
  cases seen with
  | nothing same_state same_place => exact .inl ⟨rfl, same_state, same_place⟩
  | moment moved => exact .inr ⟨_, rfl, moved⟩

end Object

/-! ### Clients that may die -/

/-- An object whose clients may die; `dies` is what a death does to its state. -/
structure FragileObject (A P C R : Type) extends Object A P C R where
  dies : A → Place P C R → A → Prop

/-- What can be told of a step: a call, the reply to a call, or a death. -/
inductive Sight (C R : Type) where
  | shown (call : C) (reply : Option R)
  | died

def Sight.of : C × Option R → Sight C R
  | (call, reply) => .shown call reply

namespace FragileObject
variable (object : FragileObject A P C R)

/-- One step of a client, or its death; a dead client has no place any more. -/
inductive Moves :
    A → Option (Place P C R) → Option (Moment C R) → A → Option (Place P C R) → Prop where
  | lived {state later : A} {place next : Place P C R} {moment : Moment C R} :
      object.toObject.Moves state place moment later next →
      Moves state (some place) (some moment) later (some next)
  | died {state later : A} {place : Place P C R} : object.dies state place later →
      Moves state (some place) none later none

/-- What can be told of a step of the object. -/
def told : Option (Moment C R) → Option (Sight C R)
  | some moment => moment.shown.map .of
  | none => some .died

/-- What the object sees of a step or of a death. -/
inductive Sees (state : A) :
    Option (Place P C R) → Option (Sight C R) → A → Option (Place P C R) → Prop where
  | lived {later : A} {place next : Place P C R} {shown : Option (C × Option R)} :
      object.toObject.Sees state place shown later next →
      Sees state (some place) (shown.map .of) later (some next)
  | died {later : A} {place : Place P C R} : object.dies state place later →
      Sees state (some place) (some .died) later none

variable {S L E ι : Type} [DecidableEq ι] {concrete : S → L → E → S → L → Prop}
  {config last : Config ι S L} {trace : List (ι × E)} {state : A}

/-- If the object sees every step and every death, every run is a run of the object
with the same calls, replies and deaths in the same order. -/
theorem linearizes {view : L → Option (Place P C R)} {sight : E → Option (Sight C R)}
    (related : Config ι S L → A → Prop)
    (sees : ∀ {config : Config ι S L} {c event shared own state}, related config state →
      concrete config.shared (config.client c) event shared own →
      ∃ later, related (config.moved c shared own) later ∧
        object.Sees state (view (config.client c)) (sight event) later (view own))
    (run : Run (Step concrete) config trace last) (initial : related config state) :
    ∃ moments later,
      Run (Step object.Moves) ⟨state, fun c => view (config.client c)⟩ moments
        ⟨later, fun c => view (last.client c)⟩ ∧
      visible told moments = visible sight trace ∧ related last later := by
  refine run_simulates related (fun {config c event shared own state} related moves => ?_) run initial
  obtain ⟨later, related, seen⟩ := sees related moves
  refine ⟨later, related, ?_⟩
  generalize sight event = answer, view (config.client c) = before, view own = behind at seen
  cases seen with
  | lived seen =>
    cases seen with
    | nothing same_state same_place => exact .inl ⟨rfl, same_state, congrArg some same_place⟩
    | moment moved => exact .inr ⟨_, rfl, .lived moved⟩
  | died dies => exact .inr ⟨none, rfl, .died dies⟩

end FragileObject
end Linearization
