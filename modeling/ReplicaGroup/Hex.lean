/-! # Hexadecimal text

Bytes and numbers written with lower-case hexadecimal digits. -/

namespace ReplicaGroup

/-- A string of bytes. -/
abbrev Bytes := List UInt8

/-- `n` in hexadecimal, filled up with leading zeros to at least `width` digits. -/
def hexNumber (width n : Nat) : String :=
  let digits := Nat.toDigits 16 n
  String.ofList (List.replicate (width - digits.length) '0' ++ digits)

/-- Two hexadecimal digits for each byte. -/
def Bytes.hex (b : Bytes) : String := String.join (b.map fun x => hexNumber 2 x.toNat)

end ReplicaGroup
