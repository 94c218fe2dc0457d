import InMemoryTable.Library.Simulation
import InMemoryTable.TableInvariant

/-! Every sequence of calls on a new table, through the creating handle and any
handles opened on the way, answers like a bounded map. -/
namespace InMemoryTable
open Simulation

/-- The memory of one table and the handles on it in the order of their creation. -/
structure Session (K B : Type) where
  memory : TableMemory B
  creator : Table K B
  opened : List (Table K B)

/-- A call names its handle by number; 0 is the creating handle. -/
inductive Command (K T R : Type) where
  | openExisting
  | call (handle : Nat) (operation : Operation K T R)

inductive CommandReply (T R : Type) where
  | opened (result : Except InMemoryTableError Unit)
  | replied (reply : Reply T R)

namespace Session
variable {K T R B : Type} [DecidableEq K] [TableRecord T K] (layout : NodeLayout K B)
  (hasher : K → Nat) (semId : Nat) (codec : Bincode T) (capacity recordSize : Nat)

def create (data : Nat → Slot UInt8) (nodes : Nat → Slot B) : Session K B :=
  let (table, memory) :=
    Table.createWithSize layout hasher semId capacity recordSize data nodes
  { memory, creator := table, opened := [] }

/-- Numbers of handles that were never opened stand for the creating handle. -/
def table (session : Session K B) (handle : Nat) : Table K B :=
  (session.creator :: session.opened)[handle]?.getD session.creator

/-- One command; all semaphore operations succeed. -/
def step (session : Session K B) : Command K T R → Option (CommandReply T R × Session K B)
  | .openExisting =>
    match Table.openExisting layout hasher semId session.memory with
    | .error e => some (.opened (.error e), session)
    | .ok table => some (.opened (.ok ()), { session with opened := session.opened ++ [table] })
  | .call handle operation =>
    ((session.table handle).run codec (fun _ => .ok ()) session.memory operation).map
      (fun (reply, memory) => (.replied reply, { session with memory }))

/-- Opening a handle succeeds and changes nothing; calls answer from the map. -/
inductive Serves (records : Records K T) :
    Command K T R → CommandReply T R → Records K T → Prop where
  | opened : Serves records .openExisting (.opened (.ok ())) records
  | replied {handle : Nat} {operation : Operation K T R} {reply : Reply T R}
      {after : Records K T} : records.Answers codec capacity recordSize operation reply after →
      Serves records (.call handle operation) (.replied reply) after

/-- All handles of a session are alike, and its memory holds `records`. -/
structure Holds (session : Session K B) (records : Records K T) : Prop where
  handles : ∀ table ∈ session.creator :: session.opened,
    table = Table.handle layout hasher semId capacity
  memory : (Table.handle layout hasher semId capacity).Holds codec capacity recordSize
    session.memory records

variable {layout hasher semId codec capacity recordSize} {session : Session K B}
  {records : Records K T}

omit [TableRecord T K] in
theorem create_holds [Inhabited K] (layout : NodeLayout K B) (data : Nat → Slot UInt8)
    (nodes : Nat → Slot B) (small : Slots.slotMetadataSize + recordSize < usizeModulus) :
    Holds layout hasher semId codec capacity recordSize
      (create layout hasher semId capacity recordSize data nodes) (∅ : Records K T) where
  handles _ member := List.mem_singleton.mp member
  memory := .of_create layout hasher semId data nodes small

omit [TableRecord T K] in
theorem Holds.table_eq (holds : Holds layout hasher semId codec capacity recordSize session records)
    (handle : Nat) : session.table handle = Table.handle layout hasher semId capacity := by
  rw [table]
  cases found : (session.creator :: session.opened)[handle]? with
  | none => exact holds.handles _ List.mem_cons_self
  | some table => exact holds.handles table (List.mem_of_getElem? found)

theorem Holds.step (holds : Holds layout hasher semId codec capacity recordSize session records)
    (positive : 1 ≤ capacity) (command : Command K T R) :
    ∃ reply after records', session.step layout hasher semId codec command = some (reply, after) ∧
      Serves codec capacity recordSize records command reply records' ∧
      Holds layout hasher semId codec capacity recordSize after records' := by
  cases command with
  | openExisting =>
    have valid : Table.openExisting layout hasher semId session.memory =
        .ok (Table.handle layout hasher semId capacity) := by
      rw [Table.openExisting, holds.memory.header]
      rfl
    refine ⟨.opened (.ok ()), { session with opened :=
        session.opened ++ [Table.handle layout hasher semId capacity] }, records,
      by simp only [Session.step, valid], .opened, ?_, holds.memory⟩
    intro table member
    rw [← List.cons_append, List.mem_append] at member
    rcases member with member | member
    · exact holds.handles table member
    · exact List.mem_singleton.mp member
  | call handle operation =>
    obtain ⟨reply, after, records', answered, answers, held⟩ :=
      holds.memory.run (Table.handle_serves layout hasher semId positive) operation
    refine ⟨.replied reply, { session with memory := after }, records', ?_, .replied answers,
      holds.handles, held⟩
    simp only [Session.step, holds.table_eq, answered, Option.map_some]

/-- From a new table whose sizes do not wrap around every command returns, and the
replies are those of a bounded map from keys to records. -/
theorem run_bounded_map [Inhabited K] (layout : NodeLayout K B) (hasher : K → Nat) (semId : Nat)
    (codec : Bincode T) (capacity recordSize : Nat) (positive : 1 ≤ capacity)
    (fits : Slots.SizeFits tableHeaderSize capacity recordSize)
    (data : Nat → Slot UInt8) (nodes : Nat → Slot B) (commands : List (Command K T R)) :
    ∃ replies session records,
      execute (step layout hasher semId codec)
        (create layout hasher semId capacity recordSize data nodes) commands =
          some (replies, session) ∧
      Follows (Serves codec capacity recordSize) ∅ commands replies records := by
  obtain ⟨replies, session, records, executed, follows, _⟩ :=
    simulates (Serves codec capacity recordSize)
      (Holds layout hasher semId codec capacity recordSize)
      (fun command holds => holds.step positive command)
      (create_holds layout data nodes fits.stride) commands
  exact ⟨replies, session, records, executed, follows⟩

/-- One record, inserted through the creating handle and found through another. -/
def sampleCommands : List (Command UInt8 (UInt8 × UInt8) Unit) :=
  [.call 0 (.insert (1, 2)), .openExisting, .call 1 (.find 1)]

theorem run_bounded_map_sample :
    ∃ replies session records,
      execute (step (.cell UInt8) UInt8.toNat 0 .twoBytes)
        (create (.cell UInt8) UInt8.toNat 0 1 2 (fun _ => ⟨.free, 0, []⟩)
          (fun _ => ⟨.free, 0, []⟩)) sampleCommands = some (replies, session) ∧
      Follows (Serves .twoBytes 1 2) ∅ sampleCommands replies records :=
  run_bounded_map _ _ 0 _ 1 2 (by decide) ⟨by decide, by decide⟩ _ _ sampleCommands

end Session
end InMemoryTable
