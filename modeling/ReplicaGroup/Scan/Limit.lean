import ReplicaGroup.Hex

/-! # Scan limits

A limit bounds the entries a scan returns, or the bytes of their values. An entry that does not fit is
refused as a whole. -/

namespace ReplicaGroup

/-- How much a scan may return. -/
inductive Limit where
  | unlimited
  /-- At most this many entries. -/
  | entries (n : Nat)
  /-- At most this many bytes of values. -/
  | bytes (n : Nat)
deriving DecidableEq, Inhabited

/-- What an entry with this value takes from the limit. -/
def Limit.cost : Limit → Bytes → Nat
  | unlimited, _ => 0
  | entries _, _ => 1
  | bytes _, value => value.length

/-- A limit and what is used up of it. -/
structure Budget where
  limit : Limit
  used : Nat
deriving DecidableEq, Inhabited

namespace Budget

/-- The whole limit. -/
def full (limit : Limit) : Budget := ⟨limit, 0⟩

/-- Whether anything is left. -/
def isOpen (b : Budget) : Bool :=
  match b.limit with
  | .unlimited => true
  | .entries n | .bytes n => b.used < n

/-- Whether an entry that costs `cost` fits. -/
def fits (b : Budget) (cost : Nat) : Bool :=
  match b.limit with
  | .unlimited => true
  | .entries n | .bytes n => b.used + cost ≤ n

/-- What is left after an entry with this value, unless the entry is refused. Nothing is taken from an
    exhausted budget, not even an entry that costs nothing. -/
def take? (b : Budget) (value : Bytes) : Option Budget :=
  let cost := b.limit.cost value
  if b.isOpen && b.fits cost then some { b with used := b.used + cost } else none

end Budget
end ReplicaGroup
