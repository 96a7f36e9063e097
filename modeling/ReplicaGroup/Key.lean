import ReplicaGroup.Hex
import ReplicaGroup.Order

/-! # Keys and key ranges

A key is a byte string, and keys are ordered bytewise. A range bounds keys on both sides; it may be
empty, also because its bounds are inverted. -/

namespace ReplicaGroup

/-- The name of a stored value. -/
structure Key where
  bytes : Bytes
deriving DecidableEq, Inhabited

namespace Key

instance : LT Key := ⟨fun a b => a.bytes < b.bytes⟩
instance : LE Key := ⟨fun a b => a.bytes ≤ b.bytes⟩
instance : DecidableLT Key := fun a b => inferInstanceAs (Decidable (a.bytes < b.bytes))
instance : DecidableLE Key := fun a b => inferInstanceAs (Decidable (a.bytes ≤ b.bytes))

instance : Std.IsLinearOrder Key :=
  isLinearOrder_of_key bytes (fun _ _ => congrArg mk) fun _ _ => .rfl

instance : Std.LawfulOrderLT Key := lawfulOrderLT_of_key bytes (fun _ _ => .rfl) fun _ _ => .rfl

/-- The empty key, which comes before every other key. -/
def least : Key := ⟨[]⟩

/-- The diagnostic text of a key. -/
def text (k : Key) : String := "Key(" ++ k.bytes.hex ++ ")"

end Key

/-- One end of a range. -/
inductive Bound where
  | unbounded
  | included (key : Key)
  | excluded (key : Key)
deriving DecidableEq, Inhabited

/-- The diagnostic text of a bound. -/
def Bound.text : Bound → String
  | .unbounded => "Unbounded"
  | .included k => "Included(" ++ k.text ++ ")"
  | .excluded k => "Excluded(" ++ k.text ++ ")"

/-- The keys between a lower and an upper bound. -/
structure KeyRange where
  lower : Bound
  upper : Bound
deriving DecidableEq, Inhabited

namespace KeyRange

/-- All keys. -/
def full : KeyRange := ⟨.unbounded, .unbounded⟩

/-- `[a, b)` -/
def closedOpen (a b : Key) : KeyRange := ⟨.included a, .excluded b⟩

/-- `(a, b)` -/
def between (a b : Key) : KeyRange := ⟨.excluded a, .excluded b⟩

/-- `[a, b]` -/
def closed (a b : Key) : KeyRange := ⟨.included a, .included b⟩

/-- The key a walk over the range starts from: the lower bound's key, or the least key of all. -/
def start (r : KeyRange) : Key :=
  match r.lower with
  | .unbounded => .least
  | .included k | .excluded k => k

/-- Whether `k` satisfies the lower bound. -/
def reached (r : KeyRange) (k : Key) : Bool :=
  match r.lower with
  | .unbounded => true
  | .included a => a ≤ k
  | .excluded a => a < k

/-- Whether `k` lies after the upper bound, so that no later key is in the range either. -/
def passed (r : KeyRange) (k : Key) : Bool :=
  match r.upper with
  | .unbounded => false
  | .included b => b < k
  | .excluded b => b ≤ k

/-- Whether `k` is in the range. -/
def contains (r : KeyRange) (k : Key) : Bool := r.reached k && !r.passed k

/-- The diagnostic text of a range. -/
def text (r : KeyRange) : String :=
  "KeyRange \x7b begin: " ++ r.lower.text ++ ", end: " ++ r.upper.text ++ " \x7d"

end KeyRange
end ReplicaGroup
