import ReplicaGroup.OrderedMap.Lemmas
import ReplicaGroup.OrderedSet

/-! # Sets in order: membership

The members of a set after each operation. -/

namespace ReplicaGroup
namespace OrderedSet

variable {α : Type} [LT α]

theorem mem_iff {s : OrderedSet α} {a : α} : a ∈ s ↔ a ∈ s.toList := .rfl

theorem mem_filter {s : OrderedSet α} {p : α → Bool} {a : α} :
    a ∈ s.filter p ↔ a ∈ s ∧ p a = true := List.mem_filter

section Insertion
variable [DecidableEq α] [DecidableLT α] [LE α] [Std.IsLinearOrder α] [Std.LawfulOrderLT α]

theorem mem_ofList {l : List α} {a : α} : a ∈ ofList l ↔ a ∈ l := by
  show a ∈ (OrderedMap.ofList (l.map fun a => (a, ()))).keys ↔ a ∈ l
  rw [OrderedMap.mem_keys_ofList, List.map_map]
  simp [Function.comp_def]

theorem mem_insert {s : OrderedSet α} {a b : α} : a ∈ s.insert b ↔ a = b ∨ a ∈ s := by
  rw [insert, mem_ofList, List.mem_append, List.mem_singleton, Or.comm]
  exact .rfl

end Insertion
end OrderedSet
end ReplicaGroup
