import ReplicaGroup.Address
import ReplicaGroup.Identifier
import ReplicaGroup.Key

/-! # Transfer messages

The sender of a transfer announces it, the receiver grants a number of chunks at a time, and the sender
answers each grant with at most that many chunks of data. -/

namespace ReplicaGroup

/-- The entries that a transfer moves. -/
abbrev Entries := List (Key × Bytes)

/-- The announcement of a transfer. -/
structure Initiate where
  id : TransferId
  source : Addr
  range : KeyRange
  metadata : Metadata
deriving DecidableEq, Inhabited

/-- What the two sides of a transfer send each other. -/
inductive Message where
  | initiate (announced : Initiate)
  /-- The sender may send this many chunks. -/
  | grant (id : TransferId) (quota : Nat)
  /-- A numbered chunk; the payload holds encoded entries. -/
  | data (id : TransferId) (chunk : UInt32) (payload : Bytes) (last : Bool)
deriving DecidableEq, Inhabited

/-- The transfer that a message belongs to. -/
def Message.id : Message → TransferId
  | initiate announced => announced.id
  | grant id _ => id
  | data id .. => id

end ReplicaGroup
