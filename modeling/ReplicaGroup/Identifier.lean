import ReplicaGroup.Hex
import ReplicaGroup.Order

/-! # Versions, positions and identifiers

A version stamps a write, a position places a decision in the log, and operations and transfers are
told apart by 64-bit identifiers that are drawn at random. -/

namespace ReplicaGroup

/-- The stamp of a write; a larger version is newer. -/
abbrev Version := UInt32

/-- The largest version. -/
def Version.last : Version := 4294967295

/-- The version before `v`; the first version is its own predecessor. -/
def Version.pred (v : Version) : Version := if v = 0 then 0 else v - 1

/-- The version after `v`, if there is one. -/
def Version.succ? (v : Version) : Option Version := if v = Version.last then none else some (v + 1)

/-- The place of a decision in the log. -/
abbrev Position := Nat

/-- Tells operations and other log values apart. -/
structure OpId where
  number : UInt64
deriving DecidableEq, Inhabited

namespace OpId

instance : LT OpId := ⟨fun a b => a.number < b.number⟩
instance : LE OpId := ⟨fun a b => a.number ≤ b.number⟩
instance : DecidableLT OpId := fun a b => inferInstanceAs (Decidable (a.number < b.number))

instance : Std.IsLinearOrder OpId :=
  isLinearOrder_of_key number (fun _ _ => congrArg mk) fun _ _ => .rfl

instance : Std.LawfulOrderLT OpId := lawfulOrderLT_of_key number (fun _ _ => .rfl) fun _ _ => .rfl

/-- The identifier in sixteen hexadecimal digits. -/
def text (i : OpId) : String := hexNumber 16 i.number.toNat

/-- The diagnostic text, which names the type. -/
def debugText (i : OpId) : String := "OpId(" ++ i.text ++ ")"

end OpId

/-- Tells transfers apart. -/
structure TransferId where
  number : UInt64
deriving DecidableEq, Inhabited

namespace TransferId

/-- The identifier in at least eight hexadecimal digits. -/
def text (i : TransferId) : String := hexNumber 8 i.number.toNat

/-- The diagnostic text, which names the type. -/
def debugText (i : TransferId) : String := "TransferId(" ++ i.text ++ ")"

end TransferId

/-- Where transferred state sits in its sender's history: the log position it reflects, and the version
    in effect after the view change that caused the transfer. -/
structure Metadata where
  snapshot? : Option Position
  version? : Option Version
deriving DecidableEq, Inhabited

/-- The diagnostic text of metadata. -/
def Metadata.text (m : Metadata) : String :=
  "Metadata \x7b snapshot_id: " ++ number (m.snapshot?) ++ ", version_id: " ++
    number (m.version?.map UInt32.toNat) ++ " \x7d"
where
  /-- A number that may be missing. -/
  number : Option Nat → String
    | none => "None"
    | some n => "Some(" ++ toString n ++ ")"

end ReplicaGroup
