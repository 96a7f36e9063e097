import ReplicaGroup.OrderedMap
import ReplicaGroup.Wire.Decode
import ReplicaGroup.Wire.Encode

/-! # The network

A network knows an inbox for each registered address. A message travels in its wire form, so the inbox
gets what decoding makes of the encoded message. -/

namespace ReplicaGroup

/-- The inboxes by address; `ι` is what tells inboxes apart. -/
abbrev Network (ι : Type) := OrderedMap Addr ι

/-- What decoding makes of an encoded message. -/
def Message.transmitted (m : Message) : Except DecodeError Message :=
  Wire.read Wire.decodeMessage (Wire.encodeMessage m)

/-- The inbox that a message to an address reaches, and the message as it arrives there. -/
def Network.route {ι : Type} (net : Network ι) (isOpen : ι → Bool) (dest : Addr) (m : Message) :
    Except Fault (ι × Message) := do
  let some inbox := net.get? dest | throw (.unknownDestination dest)
  match m.transmitted with
  | .error e => throw (.malformed e)
  | .ok arrived => if isOpen inbox then return (inbox, arrived) else throw .channelClosed

end ReplicaGroup
