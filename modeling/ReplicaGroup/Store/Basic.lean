import ReplicaGroup.Identifier
import ReplicaGroup.Key
import ReplicaGroup.OrderedMap

/-! # The versioned store

Each key keeps the values written to it under the versions of the writes. A read sees the newest
version, or the newest one that is not above a given ceiling. -/

namespace ReplicaGroup

/-- All versions of one key. -/
abbrev History := OrderedMap Version Bytes

namespace History

/-- The value of the newest version. -/
def newest? (h : History) : Option Bytes := h.last?.map (·.2)

/-- The value of the newest version that is not above `ceiling`. -/
def visible? (h : History) (ceiling : Version) : Option Bytes := newest? (h.atMost ceiling)

/-- The history without what no read at version `v - 1` or later needs: the newest version below `v`
    stays, and everything older goes. -/
def collapse (h : History) (v : Version) : History :=
  match (h.below v).last? with
  | some (floor, _) => h.atLeast floor
  | none => h

end History

/-- The histories of the stored keys. -/
structure Store where
  histories : OrderedMap Key History
deriving DecidableEq, Inhabited

namespace Store

/-- The store without keys. -/
def empty : Store := ⟨.empty⟩

/-- The number of keys. -/
def size (s : Store) : Nat := s.histories.size

/-- Whether there is no key. -/
def isEmpty (s : Store) : Bool := s.histories.isEmpty

/-- All versions of `k`. -/
def history? (s : Store) (k : Key) : Option History := s.histories.get? k

/-- The newest value of `k`. -/
def read? (s : Store) (k : Key) : Option Bytes := (s.history? k).bind History.newest?

/-- Writes a value under a version, in place of an earlier value of the same version. -/
def put (s : Store) (k : Key) (value : Bytes) (v : Version) : Store :=
  ⟨s.histories.insert k (((s.history? k).getD .empty).insert v value)⟩

/-- Removes a key with all its versions. -/
def delete (s : Store) (k : Key) : Store := ⟨s.histories.erase k⟩

/-- Removes the versions of `k` below `v`; the key stays, even if no version is left. -/
def dropBelow (s : Store) (k : Key) (v : Version) : Store :=
  match s.history? k with
  | some h => ⟨s.histories.insert k (h.atLeast v)⟩
  | none => s

/-- The histories from `k` on, in key order. -/
def startingAt (s : Store) (k : Key) : List (Key × History) := (s.histories.atLeast k).entries

/-- Drops the keys outside `range`, and inside it the history that no read at version `v - 1` or later
    needs. -/
def cleanup (s : Store) (range : KeyRange) (v : Version) : Store :=
  ⟨s.histories.filterMap fun k h => if range.contains k then some (h.collapse v) else none⟩

/-- The store after writing all entries under one version, in key order. -/
def putAll (s : Store) (puts : OrderedMap Key Bytes) (v : Version) : Store :=
  puts.entries.foldl (fun s e => s.put e.1 e.2 v) s

end Store
end ReplicaGroup
