import ReplicaGroup.Dispatch
import ReplicaGroup.Log
import ReplicaGroup.Transfer.Lifecycle

/-! # The engine of a replica: state, events and effects

The engine owns the replica's view, range and version, and changes them only while it applies decided
values in position order. It reaches the log, storage and transfers through effects, and hears from them
through events, so that it never waits for any of them. -/

namespace ReplicaGroup

/-- A proposed move of the group to a new view. -/
structure ViewChange where
  view : View
  quorum : Nat
  range : KeyRange
deriving DecidableEq, Inhabited

/-- What an engine is told. -/
inductive Event where
  /-- A client submits an operation. -/
  | submit (op : Operation)
  /-- Decisions, in the order of their delivery. -/
  | decide (decisions : List Decision)
  | changeView (change : ViewChange)
  /-- The size of a range is asked for. -/
  | measure (range : KeyRange)
  /-- Storage responds to a request of the engine. -/
  | stored (response : Response)
  | message (m : Message)
  | completed (c : Completion)
  /-- A transfer has stopped. -/
  | stopped (id : TransferId)
  | stop

/-- What an engine tells the program above it. -/
inductive Upcall where
  | answer (a : Answer)
  /-- The replica serves the whole range. -/
  | synced
  | size (range : KeyRange) (bytes keys : Nat)
  | delta (d : SizeDelta)
deriving DecidableEq, Inhabited

/-- What an engine does. -/
inductive Effect where
  | propose (v : Value)
  /-- Tells the log that nothing at or below the position is needed. -/
  | prune (watermark : Position)
  | upcall (u : Upcall)
  /-- Queues a request to storage; a response comes back as an event if the request has one. -/
  | request (r : Request)
  | startSend (outbound : Outbound) (scanId : OpId)
  /-- Starts a receiving transfer, with an announcement that was held for it. -/
  | startReceive (id : TransferId) (held? : Option Initiate)
  | deliver (id : TransferId) (m : Message)
  | stopTransfer (id : TransferId)
  /-- Forgets a transfer, which can be sent no more messages. -/
  | releaseTransfer (id : TransferId)

/-- What an engine finds around it. -/
structure Host where
  addr : Addr
  /-- The numbers that identifiers are drawn from, in order. -/
  draw : Nat → UInt64
  logOpen : Bool
  storeOpen : Bool
  upcallOpen : Bool
  /-- Whether a transfer still takes messages. -/
  transferOpen : TransferId → Bool

/-- A completed catch-up that waits until its marker is decided. -/
structure Syncing where
  marker : OpId
  snapshot : Position
  version : Version
deriving DecidableEq, Inhabited

/-- The state of an engine. -/
structure Engine where
  mode : Mode := .passive
  view : View := .none
  quorum : Nat := 0
  range : KeyRange := .full
  version : Version := 0
  /-- The position that storage is known to hold all writes up to. -/
  lastSnapshot : Position := 0
  /-- The last watermark that the log was pruned to. -/
  pruned : Position := 0
  log : OperationsLog := .empty
  /-- The sending transfers that have not stopped yet, in the order of their start. -/
  outgoing : List TransferId := []
  /-- The receiving transfer. -/
  incoming? : Option TransferId := none
  /-- An announcement that came before the replica joined. -/
  held? : Option Initiate := none
  syncing? : Option Syncing := none
  /-- The number of identifiers drawn. -/
  drawn : Nat := 0

instance : Inhabited Engine := ⟨{}⟩

/-- Where an engine is after some work, what it did, and whether it failed. A failure leaves the state as
    it was when it arose. -/
structure Step where
  engine : Engine
  effects : List Effect := []
  fault? : Option Fault := none

namespace Step

/-- Goes on with `f`, unless the step has failed. -/
def andThen (s : Step) (f : Engine → Step) : Step :=
  match s.fault? with
  | some _ => s
  | none =>
    let t := f s.engine
    { t with effects := s.effects ++ t.effects }

/-- Works through a list, up to the first failure. -/
def forEach {α : Type} (f : α → Engine → Step) : List α → Engine → Step
  | [], e => { engine := e }
  | a :: rest, e => (f a e).andThen (forEach f rest)

end Step

namespace Engine

/-- Nothing to do. -/
def done (e : Engine) : Step := { engine := e }

/-- Fails. -/
def fail (f : Fault) (e : Engine) : Step := { engine := e, fault? := some f }

/-- Does something that needs an open channel. -/
def emit (isOpen : Bool) (effect : Effect) (e : Engine) : Step :=
  if isOpen then { engine := e, effects := [effect] } else e.fail .channelClosed

/-- Proposes a value. -/
def propose (h : Host) (v : Value) : Engine → Step := emit h.logOpen (.propose v)

/-- Tells the program above. -/
def tell (h : Host) (u : Upcall) : Engine → Step := emit h.upcallOpen (.upcall u)

/-- Answers an operation. -/
def respond (h : Host) (a : Answer) : Engine → Step := tell h (.answer a)

/-- Queues a request to storage. -/
def issue (h : Host) (r : Request) : Engine → Step := emit h.storeOpen (.request r)

/-- Sends a message to a transfer of this engine. -/
def deliver (h : Host) (id : TransferId) (m : Message) : Engine → Step :=
  emit (h.transferOpen id) (.deliver id m)

/-- Goes on with a version after the given one. -/
def nextVersion (v : Version) (f : Version → Engine → Step) (e : Engine) : Step :=
  match v.succ? with
  | some v => f v e
  | none => e.fail (.versionExhausted v)

/-- Draws a number for an identifier. -/
def draw (h : Host) (e : Engine) : UInt64 × Engine := (h.draw e.drawn, { e with drawn := e.drawn + 1 })

end Engine
end ReplicaGroup
