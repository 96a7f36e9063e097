import ReplicaGroup.Transfer.Run
import ReplicaGroup.Wire.Encode

/-! # The sender of a transfer

The sender captures the state of the range as of the version before the view change, announces the
transfer, and then sends chunks as far as they are granted. The chunk with the last entries is marked;
a range without entries is one empty chunk. -/

namespace ReplicaGroup

/-- A transfer to a joining member. -/
structure Outbound where
  id : TransferId
  recipient : Addr
  range : KeyRange
  metadata : Metadata
deriving DecidableEq, Inhabited

/-- What a sender is doing. -/
inductive Sender.Phase where
  /-- Waits for the captured state. -/
  | capturing
  /-- Waits for a grant; `sent` chunks are sent and `rest` is left. -/
  | streaming (sent : Nat) (rest : Entries)
deriving DecidableEq, Inhabited

/-- The sending side of a transfer. -/
structure Sender where
  outbound : Outbound
  /-- The address that the recipient answers to. -/
  source : Addr
  /-- The entries of a chunk; zero counts as one. -/
  chunkEntries : Nat
  phase : Sender.Phase
deriving DecidableEq, Inhabited

namespace Sender

/-- Starts the capture. The state is read at the version before that of the view change. -/
def start (links : Links) (outbound : Outbound) (source : Addr) (chunkEntries : Nat) (scanId : OpId) :
    Turn Sender :=
  match outbound.metadata.version? with
  | none => .fail (.transfer outbound.id .noVersion)
  | some version =>
    .requesting links (.scan (.read scanId outbound.range version.pred))
      ⟨outbound, source, chunkEntries, .capturing⟩

/-- The announcement of the transfer. -/
def announcement (s : Sender) : Message :=
  .initiate ⟨s.outbound.id, s.source, s.outbound.range, s.outbound.metadata⟩

/-- The number of entries in a full chunk. -/
def chunkSize (s : Sender) : Nat := max 1 s.chunkEntries

/-- The next chunk as a message, when `sent` chunks are sent and `rest` is left. -/
def chunk (s : Sender) (sent : Nat) (rest : Entries) : Message :=
  .data s.outbound.id sent.toUInt32 (Wire.encodeEntries (rest.take s.chunkSize))
    (rest.drop s.chunkSize).isEmpty

/-- Sends up to `quota` chunks, and ends after the last one. -/
def stream (links : Links) (s : Sender) : Nat → Nat → Entries → Turn Sender
  | 0, sent, rest => .wait { s with phase := .streaming sent rest }
  | quota + 1, sent, rest =>
    .sending links s.outbound.recipient (s.chunk sent rest)
      (if (rest.drop s.chunkSize).isEmpty then .finish s.outbound.metadata
        else stream links s quota (sent + 1) (rest.drop s.chunkSize))

/-- What the sender does on a signal. Grants count whatever transfer they name; a signal that is not
    waited for changes nothing. -/
def signal (links : Links) (s : Sender) (signal : Signal) : Turn Sender :=
  match s.phase, signal with
  | .capturing, .response (.scan captured) =>
    .sending links s.outbound.recipient s.announcement
      (.wait { s with phase := .streaming 0 captured.results.entries })
  | .capturing, .response _ => .fail (.transfer s.outbound.id (.notCaptured s.outbound.range))
  | .capturing, .replyLost => .fail .replyLost
  | .streaming sent rest, .message (.grant _ quota) => s.stream links quota sent rest
  | _, _ => .wait s

/-- Whether the sender waits for messages. -/
def isListening (s : Sender) : Bool :=
  match s.phase with
  | .capturing => false
  | .streaming .. => true

/-- The fault of hearing nothing in time, if the sender waits only for a limited time. -/
def silence? (s : Sender) : Option Fault :=
  match s.phase with
  | .capturing => none
  | .streaming .. => some (.transfer s.outbound.id .noGrant)

end Sender
end ReplicaGroup
