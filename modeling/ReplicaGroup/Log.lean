import ReplicaGroup.Operation
import ReplicaGroup.View

/-! # The replicated log

Every replica receives the same decisions, but perhaps late, twice or out of order. An operations log
releases the values in position order without gaps, and keeps the released ones until it is pruned. -/

namespace ReplicaGroup

/-- A decided move to a new view. -/
structure Reconfiguration where
  id : OpId
  view : View
  quorum : Nat
  /-- The version of the proposer when it proposed. -/
  version : Version
  range : KeyRange
deriving DecidableEq, Inhabited

/-- What is decided at a position of the log. -/
inductive Value where
  | op (op : Operation)
  | reconfigure (r : Reconfiguration)
  /-- Every serving replica reports the size of a range. -/
  | scan (id : OpId) (range : KeyRange)
  /-- The replica that proposed this marker has all transferred state. -/
  | syncedUp (id : OpId)
  | noop (id : OpId)
  /-- A value of a kind that is not known here. -/
  | unknown (id : OpId) (tag : Nat)

/-- The identifier of a value. -/
def Value.id : Value → OpId
  | op o => o.id
  | reconfigure r => r.id
  | scan id _ | syncedUp id | noop id | unknown id _ => id

/-- What a replica tells the replicated log. -/
inductive LogCommand where
  | propose (v : Value)
  /-- The replica needs nothing at or below the position any more. -/
  | prune (replica : Addr) (watermark : Position)

/-- A value and the position it is decided at. -/
structure Decision where
  position : Position
  value : Value

namespace Decision

/-- Decisions are ordered by position, and by the identifier of the value at equal positions. -/
def before (a b : Decision) : Bool :=
  a.position < b.position ∨ a.position = b.position ∧ a.value.id < b.value.id

/-- Whether neither decision comes before the other. -/
def sameAs (a b : Decision) : Bool := a.position = b.position ∧ a.value.id = b.value.id

end Decision

/-- The decided values that one replica knows. The first value delivered fixes where the log starts. -/
structure OperationsLog where
  /-- Released values that are not pruned. -/
  entries : OrderedMap Position Value
  /-- Values delivered ahead of a gap. -/
  pending : OrderedMap Position Value
  /-- The last released position. -/
  applied? : Option Position

namespace OperationsLog

/-- The log that has seen nothing. -/
def empty : OperationsLog := ⟨.empty, .empty, none⟩

instance : Inhabited OperationsLog := ⟨empty⟩

/-- The leading entries that follow on from the last released position without gap. -/
def leadingRun : Option Position → List (Position × Value) → List (Position × Value)
  | _, [] => []
  | none, e :: rest => e :: leadingRun (some e.1) rest
  | some last, e :: rest => if e.1 = last + 1 then e :: leadingRun (some e.1) rest else []

/-- Whether the value of a position is already known. -/
def knows (log : OperationsLog) (position : Position) : Bool :=
  log.applied?.any (position ≤ ·) || log.pending.contains position

/-- Moves the waiting values that now follow on from the last released one to the entries, and answers
    them. -/
def release (log : OperationsLog) : OperationsLog × List (Position × Value) :=
  let ready := leadingRun log.applied? log.pending.entries
  match ready.getLast? with
  | none => (log, [])
  | some (last, _) =>
    ({ entries := ready.foldl (fun m e => m.insert e.1 e.2) log.entries
       pending := log.pending.above last
       applied? := some last }, ready)

/-- Adds a decided value, and answers the values that are released by it, in position order. A second
    value for a position is rejected. -/
def insert (log : OperationsLog) (position : Position) (value : Value) :
    OperationsLog × List (Position × Value) :=
  if log.knows position then (log, [])
  else { log with pending := log.pending.insert position value }.release

/-- The recorded operations after `position`, in position order. -/
def operationsAfter (log : OperationsLog) (position : Position) : List (Position × Operation) :=
  (log.entries.above position).entries.filterMap fun e =>
    match e.2 with
    | .op op => some (e.1, op)
    | _ => none

/-- Discards the recorded values at or below `watermark`. -/
def prune (log : OperationsLog) (watermark : Position) : OperationsLog :=
  { log with entries := log.entries.above watermark }

/-- The number of recorded values. -/
def size (log : OperationsLog) : Nat := log.entries.size

end OperationsLog
end ReplicaGroup
