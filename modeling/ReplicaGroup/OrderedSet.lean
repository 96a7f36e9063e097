import ReplicaGroup.OrderedMap

/-! # Sets in order

A finite set kept as the strictly increasing list of its members. -/

namespace ReplicaGroup

/-- A finite set whose members are listed in strictly increasing order. -/
structure OrderedSet (α : Type) [LT α] where
  toList : List α
  ordered : toList.Pairwise (· < ·)

namespace OrderedSet

variable {α : Type} [LT α]

/-- Two sets with the same list of members are equal. -/
theorem ext {s t : OrderedSet α} (h : s.toList = t.toList) : s = t := by
  cases s; cases t; cases h; rfl

instance [DecidableEq α] : DecidableEq (OrderedSet α) := fun s t =>
  if h : s.toList = t.toList then .isTrue (ext h) else .isFalse fun e => h (e ▸ rfl)

instance : Membership α (OrderedSet α) := ⟨fun s a => a ∈ s.toList⟩

instance [DecidableEq α] (a : α) (s : OrderedSet α) : Decidable (a ∈ s) :=
  inferInstanceAs (Decidable (a ∈ s.toList))

/-- The set without members. -/
def empty : OrderedSet α := ⟨[], .nil⟩

instance : Inhabited (OrderedSet α) := ⟨empty⟩

/-- The number of members. -/
def size (s : OrderedSet α) : Nat := s.toList.length

/-- The members that satisfy `p`. -/
def filter (p : α → Bool) (s : OrderedSet α) : OrderedSet α := ⟨s.toList.filter p, s.ordered.filter p⟩

/-- The keys of a map. -/
def ofKeys {β : Type} (m : OrderedMap α β) : OrderedSet α := ⟨m.keys, List.pairwise_map.mpr m.ordered⟩

section Insertion
variable [DecidableLT α] [LE α] [Std.IsLinearOrder α] [Std.LawfulOrderLT α]

/-- The members of a list, each once. -/
def ofList (l : List α) : OrderedSet α := ofKeys (OrderedMap.ofList (l.map fun a => (a, ())))

/-- The set with `a` added. -/
def insert (s : OrderedSet α) (a : α) : OrderedSet α := ofList (s.toList ++ [a])

end Insertion
end OrderedSet
end ReplicaGroup
