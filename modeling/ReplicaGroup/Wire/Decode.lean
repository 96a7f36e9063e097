import ReplicaGroup.Fault
import ReplicaGroup.Transfer.Message

/-! # The wire format: decoding

A decoder takes its value from the front of the bytes and leaves the rest. What follows a whole message
is ignored. -/

namespace ReplicaGroup.Wire

/-- Takes a value from the front of bytes. -/
abbrev Decoder (α : Type) := StateT Bytes (Except DecodeError) α

/-- One byte. -/
def decodeByte : Decoder UInt8 := fun
  | [] => .error .tooShort
  | b :: rest => .ok (b, rest)

/-- A number of `width` bytes, the lowest first. -/
def decodeNat : Nat → Decoder Nat
  | 0 => pure 0
  | width + 1 => do
    let low ← decodeByte
    let high ← decodeNat width
    return low.toNat + 256 * high

/-- The index of an alternative. -/
def decodeTag : Decoder Nat := decodeNat 4

/-- A length, count or identifier. -/
def decodeLong : Decoder Nat := decodeNat 8

/-- The next `n` bytes. -/
def takeBytes (n : Nat) : Decoder Bytes := fun bytes =>
  if bytes.length < n then .error .tooShort else .ok (bytes.take n, bytes.drop n)

/-- Bytes preceded by their number. -/
def decodeBytes : Decoder Bytes := do takeBytes (← decodeLong)

/-- A text as its UTF-8 bytes. -/
def decodeText : Decoder String := do
  match String.fromUTF8? ⟨(← decodeBytes).toArray⟩ with
  | some s => return s
  | none => throw .invalidText

/-- A truth value. -/
def decodeFlag : Decoder Bool := do
  match ← decodeByte with
  | 0 => return false
  | 1 => return true
  | _ => throw .invalidFlag

/-- A value that may be missing. -/
def decodeOption {α : Type} (decode : Decoder α) : Decoder (Option α) := do
  match ← decodeByte with
  | 0 => return none
  | 1 => return some (← decode)
  | _ => throw .invalidPresence

/-- A segment of an IPv6 address, its high byte first. -/
def decodeSegment : Decoder UInt16 := do
  let high ← decodeByte
  let low ← decodeByte
  return high.toUInt16 <<< 8 ||| low.toUInt16

/-- An internet address. -/
def decodeIp : Decoder Ip := do
  match ← decodeTag with
  | 0 => return .v4 (← decodeByte) (← decodeByte) (← decodeByte) (← decodeByte)
  | 1 =>
    return .v6 (← decodeSegment) (← decodeSegment) (← decodeSegment) (← decodeSegment)
      (← decodeSegment) (← decodeSegment) (← decodeSegment) (← decodeSegment)
  | _ => throw .unknownAlternative

/-- An address. -/
def decodeAddr : Decoder Addr := do
  match ← decodeTag with
  | 0 => do
    let ip ← decodeIp
    return .socket ip (← decodeNat 2).toUInt16
  | 1 => return .name (← decodeText)
  | _ => throw .unknownAlternative

/-- A key. -/
def decodeKey : Decoder Key := do return ⟨← decodeBytes⟩

/-- One end of a range. -/
def decodeBound : Decoder Bound := do
  match ← decodeTag with
  | 0 => return .unbounded
  | 1 => return .included (← decodeKey)
  | 2 => return .excluded (← decodeKey)
  | _ => throw .unknownAlternative

/-- A range, the lower end first. -/
def decodeRange : Decoder KeyRange := do return ⟨← decodeBound, ← decodeBound⟩

/-- The metadata of a transfer. -/
def decodeMetadata : Decoder Metadata := do
  let snapshot? ← decodeOption decodeLong
  let version? ← decodeOption (do return (← decodeNat 4).toUInt32)
  return ⟨snapshot?, version?⟩

/-- The identifier of a transfer. -/
def decodeTransferId : Decoder TransferId := do return ⟨(← decodeLong).toUInt64⟩

/-- A message. -/
def decodeMessage : Decoder Message := do
  match ← decodeTag with
  | 0 => return .initiate ⟨← decodeTransferId, ← decodeAddr, ← decodeRange, ← decodeMetadata⟩
  | 1 => return .grant (← decodeTransferId) (← decodeLong)
  | 2 => return .data (← decodeTransferId) (← decodeNat 4).toUInt32 (← decodeBytes) (← decodeFlag)
  | _ => throw .unknownAlternative

/-- One entry. -/
def decodeEntry : Decoder (Key × Bytes) := do return (← decodeKey, ← decodeBytes)

/-- A number of values one after the other. -/
def decodeMany {α : Type} (decode : Decoder α) : Nat → Decoder (List α)
  | 0 => return []
  | n + 1 => do
    let a ← decode
    let rest ← decodeMany decode n
    return a :: rest

/-- Entries preceded by their number. -/
def decodeEntries : Decoder Entries := do decodeMany decodeEntry (← decodeLong)

/-- The value at the front of the bytes; what follows it is ignored. -/
def read {α : Type} (decode : Decoder α) (bytes : Bytes) : Except DecodeError α :=
  (decode.run bytes).map (·.1)

end ReplicaGroup.Wire
