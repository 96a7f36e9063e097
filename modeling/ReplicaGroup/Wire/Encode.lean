import ReplicaGroup.Transfer.Message

/-! # The wire format: encoding

Numbers have a fixed width and their low byte first. Bytes, texts and lists are preceded by their length
in eight bytes, alternatives by their index in four, a value that may be missing by one byte. The parts
of a value follow each other without framing. -/

namespace ReplicaGroup.Wire

/-- The `width` low bytes of a number, the lowest first. -/
def encodeNat : Nat → Nat → Bytes
  | 0, _ => []
  | width + 1, n => (n % 256).toUInt8 :: encodeNat width (n / 256)

/-- The index of an alternative. -/
def encodeTag (index : Nat) : Bytes := encodeNat 4 index

/-- A length, count or identifier. -/
def encodeLong (n : Nat) : Bytes := encodeNat 8 n

/-- Bytes preceded by their number. -/
def encodeBytes (b : Bytes) : Bytes := encodeLong b.length ++ b

/-- A text as its UTF-8 bytes. -/
def encodeText (s : String) : Bytes := encodeBytes s.toByteArray.data.toList

/-- A truth value. -/
def encodeFlag (b : Bool) : Bytes := [if b then 1 else 0]

/-- A value that may be missing. -/
def encodeOption {α : Type} (encode : α → Bytes) : Option α → Bytes
  | none => [0]
  | some a => 1 :: encode a

/-- A segment of an IPv6 address, its high byte first. -/
def encodeSegment (s : UInt16) : Bytes := [(s >>> 8).toUInt8, s.toUInt8]

/-- The bytes of an internet address. -/
def encodeIp : Ip → Bytes
  | .v4 a b c d => encodeTag 0 ++ [a, b, c, d]
  | .v6 a b c d e f g h =>
    encodeTag 1 ++ List.flatMap encodeSegment [a, b, c, d, e, f, g, h]

/-- An address. -/
def encodeAddr : Addr → Bytes
  | .socket ip service => encodeTag 0 ++ encodeIp ip ++ encodeNat 2 service.toNat
  | .name text => encodeTag 1 ++ encodeText text

/-- A key. -/
def encodeKey (k : Key) : Bytes := encodeBytes k.bytes

/-- One end of a range. -/
def encodeBound : Bound → Bytes
  | .unbounded => encodeTag 0
  | .included k => encodeTag 1 ++ encodeKey k
  | .excluded k => encodeTag 2 ++ encodeKey k

/-- A range, the lower end first. -/
def encodeRange (r : KeyRange) : Bytes := encodeBound r.lower ++ encodeBound r.upper

/-- The metadata of a transfer. -/
def encodeMetadata (m : Metadata) : Bytes :=
  encodeOption encodeLong m.snapshot? ++ encodeOption (fun v => encodeNat 4 v.toNat) m.version?

/-- The identifier of a transfer. -/
def encodeTransferId (id : TransferId) : Bytes := encodeLong id.number.toNat

/-- A message. -/
def encodeMessage : Message → Bytes
  | .initiate i =>
    encodeTag 0 ++ encodeTransferId i.id ++ encodeAddr i.source ++ encodeRange i.range ++
      encodeMetadata i.metadata
  | .grant id quota => encodeTag 1 ++ encodeTransferId id ++ encodeLong quota
  | .data id chunk payload last =>
    encodeTag 2 ++ encodeTransferId id ++ encodeNat 4 chunk.toNat ++ encodeBytes payload ++ encodeFlag last

/-- One entry. -/
def encodeEntry (e : Key × Bytes) : Bytes := encodeKey e.1 ++ encodeBytes e.2

/-- Entries preceded by their number. -/
def encodeEntries (es : Entries) : Bytes := encodeLong es.length ++ es.flatMap encodeEntry

end ReplicaGroup.Wire
