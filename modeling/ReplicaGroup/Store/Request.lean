import ReplicaGroup.Scan.Basic

/-! # Storage requests

What a replica asks of its storage, and what storage answers. Requests are executed one at a time; a
snapshot is a request that executes other requests in order. -/

namespace ReplicaGroup

/-- A key and the value it must have; `none` requires the key to be absent. -/
structure Condition where
  key : Key
  expected? : Option Bytes
deriving DecidableEq, Inhabited

/-- Writes that depend on conditions, all tested before anything is written. -/
structure ConditionalWrite where
  conditions : List Condition
  ifMet : OrderedMap Key Bytes
  otherwise : OrderedMap Key Bytes
deriving DecidableEq, Inhabited

namespace ConditionalWrite

/-- Whether every condition holds in the store. -/
def isMet (w : ConditionalWrite) (s : Store) : Bool := w.conditions.all fun c => s.read? c.key = c.expected?

/-- The writes that the store calls for. -/
def puts (w : ConditionalWrite) (s : Store) : OrderedMap Key Bytes :=
  if w.isMet s then w.ifMet else w.otherwise

end ConditionalWrite

/-- What storage is asked to do. -/
inductive Request where
  | get (id : OpId) (key : Key)
  | put (key : Key) (value : Bytes) (version : Version)
  | scan (scan : Scan)
  | multi (id : OpId) (write : ConditionalWrite) (version : Version)
  | size (range : KeyRange)
  /-- Drops keys outside the range and history below the version. -/
  | cleanup (range : KeyRange) (version : Version)
  /-- Executes captured writes of the log up to a position, in order. -/
  | snapshot (position : Position) (requests : List Request)

/-- Whether the requester waits for a response. -/
def Request.wantsReply : Request → Bool
  | put .. | cleanup .. => false
  | _ => true

/-- What storage answers. -/
inductive Response where
  | get (id : OpId) (key : Key) (value? : Option Bytes)
  | scan (result : ScanResult)
  | multi (id : OpId) (met : Bool)
  | size (range : KeyRange) (bytes keys : Nat)
  | snapshot (position : Position)
  | failed (id : OpId)
  | done
deriving DecidableEq, Inhabited

/-- The change of stored sizes that a response reports, if there is any. -/
def Response.delta? : Response → Option SizeDelta
  | scan result => if result.delta = .zero then none else some result.delta
  | _ => none

/-- The bytes of the newest values of a range's keys, and their number. A walk over histories from the
    range's first key on; keys before the range are skipped, and a key after it ends the walk. -/
def KeyRange.measure (range : KeyRange) : List (Key × History) → Nat × Nat
  | [] => (0, 0)
  | (k, h) :: rest =>
    if range.passed k then (0, 0)
    else
      let (bytes, keys) := measure range rest
      match h.newest? with
      | some value => if range.contains k then (bytes + value.length, keys + 1) else (bytes, keys)
      | none => (bytes, keys)

/-- What executing a request did. -/
structure Execution where
  store : Store
  response : Response
  /-- The calls of range actions, in order, each with the action's name. -/
  calls : List (String × ActionCall)

namespace Request

mutual

/-- Executes a request. -/
def execute : Request → Store → Execution
  | .get id key, s => ⟨s, .get id key (s.read? key), []⟩
  | .put key value version, s => ⟨s.put key value version, .done, []⟩
  | .scan read, s =>
    let outcome := read.run s
    let calls := outcome.calls.map fun call => (read.action.name, call)
    match outcome.result with
    | .ok result => ⟨outcome.store, .scan result, calls⟩
    | .error _ => ⟨outcome.store, .failed read.id, calls⟩
  | .multi id write version, s => ⟨s.putAll (write.puts s) version, .multi id (write.isMet s), []⟩
  | .size range, s =>
    let (bytes, keys) := range.measure (s.startingAt range.start)
    ⟨s, .size range bytes keys, []⟩
  | .cleanup range version, s => ⟨s.cleanup range version, .done, []⟩
  | .snapshot position requests, s =>
    let (s, calls) := executeAll requests s
    ⟨s, .snapshot position, calls⟩

/-- Executes requests in order. -/
def executeAll : List Request → Store → Store × List (String × ActionCall)
  | [], s => (s, [])
  | r :: rest, s =>
    let e := execute r s
    let (s, calls) := executeAll rest e.store
    (s, e.calls ++ calls)

end

end Request
end ReplicaGroup
