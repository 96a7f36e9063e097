/-! # Types ordered by a key

Keys, addresses and identifiers are ordered through an injective key into a type that is already
linearly ordered. The two statements here carry the order laws back along such a key. -/

namespace ReplicaGroup

variable {α κ : Type} [LE α] [LE κ]

/-- A type compared through an injective key is linearly ordered when the keys are. -/
theorem isLinearOrder_of_key [Std.IsLinearOrder κ] (key : α → κ)
    (injective : ∀ a b, key a = key b → a = b) (le_iff : ∀ a b, a ≤ b ↔ key a ≤ key b) :
    Std.IsLinearOrder α where
  le_refl a := (le_iff a a).mpr (Std.IsPreorder.le_refl _)
  le_trans a b c hab hbc :=
    (le_iff a c).mpr (Std.IsPreorder.le_trans _ _ _ ((le_iff a b).mp hab) ((le_iff b c).mp hbc))
  le_antisymm a b hab hba :=
    injective a b (Std.IsPartialOrder.le_antisymm _ _ ((le_iff a b).mp hab) ((le_iff b a).mp hba))
  le_total a b := (Std.IsLinearPreorder.le_total (key a) (key b)).imp (le_iff a b).mpr (le_iff b a).mpr

/-- A strict order read off the keys is the strict part of the order read off the keys. -/
theorem lawfulOrderLT_of_key [LT α] [LT κ] [Std.LawfulOrderLT κ] (key : α → κ)
    (le_iff : ∀ a b, a ≤ b ↔ key a ≤ key b) (lt_iff : ∀ a b, a < b ↔ key a < key b) :
    Std.LawfulOrderLT α where
  lt_iff a b := by rw [lt_iff, le_iff, le_iff, Std.LawfulOrderLT.lt_iff]

end ReplicaGroup
