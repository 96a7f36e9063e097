import ReplicaGroup.Transfer.Run
import ReplicaGroup.Wire.Decode

/-! # The receiver of a transfer

The receiver waits for the announcement, grants chunks a quota at a time, and writes each chunk one
version below that of the view change, so that later writes stay visible. It takes the next message only
after a chunk is written. -/

namespace ReplicaGroup

/-- An announced transfer that is being received. -/
structure Reception where
  announced : Initiate
  snapshot : Position
  version : Version
  /-- The granted chunks that have not been written yet. -/
  granted : Nat
deriving DecidableEq, Inhabited

/-- What a receiver is doing. -/
inductive Receiver.Phase where
  /-- Waits for the announcement, however long it takes. -/
  | opening
  /-- Waits for data. -/
  | receiving (r : Reception)
  /-- Waits until a chunk is written. -/
  | writing (r : Reception) (last : Bool)
deriving DecidableEq, Inhabited

/-- The receiving side of a transfer. -/
structure Receiver where
  /-- The chunks that one grant allows; zero counts as one. -/
  quota : Nat
  phase : Receiver.Phase
deriving DecidableEq, Inhabited

namespace Receiver

/-- Waits for data, after a new grant if the last one is used up. -/
def awaitData (links : Links) (s : Receiver) (r : Reception) : Turn Receiver :=
  if r.granted = 0 then
    let granted := max 1 s.quota
    .sending links r.announced.source (.grant r.announced.id granted)
      (.wait { s with phase := .receiving { r with granted := granted } })
  else .wait { s with phase := .receiving r }

/-- Takes an announcement. Without both parts of the metadata the transfer ends at once, and it is for
    its owner to reject it. -/
def accept (links : Links) (s : Receiver) (announced : Initiate) : Turn Receiver :=
  match announced.metadata.snapshot?, announced.metadata.version? with
  | some snapshot, some version => s.awaitData links ⟨announced, snapshot, version, 0⟩
  | _, _ => .finish announced.metadata

/-- The request that writes entries of the transfer. -/
def writeRequest (r : Reception) (entries : Entries) : Request :=
  .snapshot r.snapshot (entries.map fun e => .put e.1 e.2 r.version.pred)

/-- Writes the entries of a chunk. -/
def write (links : Links) (s : Receiver) (r : Reception) (payload : Bytes) (last : Bool) : Turn Receiver :=
  match Wire.read Wire.decodeEntries payload with
  | .error e => .fail (.malformed e)
  | .ok entries => .requesting links (writeRequest r entries) { s with phase := .writing r last }

/-- What the receiver does on a signal. Data of another transfer and messages of other kinds are passed
    over; a signal that is not waited for changes nothing. -/
def signal (links : Links) (s : Receiver) (signal : Signal) : Turn Receiver :=
  match s.phase, signal with
  | .opening, .message (.initiate announced) => s.accept links announced
  | .receiving r, .message (.data id _ payload last) =>
    if id = r.announced.id then s.write links r payload last else .wait s
  | .writing r last, .response _ =>
    if last then .finish r.announced.metadata
    else s.awaitData links { r with granted := r.granted - 1 }
  | .writing .., .replyLost => .fail .replyLost
  | _, _ => .wait s

/-- Whether the receiver waits for messages. -/
def isListening (s : Receiver) : Bool :=
  match s.phase with
  | .opening | .receiving _ => true
  | .writing .. => false

/-- The fault of hearing nothing in time, if the receiver waits only for a limited time. -/
def silence? (s : Receiver) : Option Fault :=
  match s.phase with
  | .receiving r => some (.transfer r.announced.id .noData)
  | .opening | .writing .. => none

end Receiver
end ReplicaGroup
