import ReplicaGroup.Address
import ReplicaGroup.OrderedSet

/-! # Views

A view is a numbered membership of the group. When the group moves to a new view, the members of the
old one divide the joining members among themselves. -/

namespace ReplicaGroup

/-- A membership of the group; a larger number is newer. -/
structure View where
  number : Nat
  members : OrderedSet Addr
deriving DecidableEq, Inhabited

namespace View

/-- The view before any group exists. -/
def none : View := ⟨0, .empty⟩

/-- Whether `v` replaces `old`. -/
def isNewerThan (v old : View) : Bool := old.number < v.number

/-- The largest member ordered before `me`. -/
def predecessor? (v : View) (me : Addr) : Option Addr := (v.members.toList.filter (· < me)).getLast?

/-- Whether no member is ordered after `me`. -/
def isLast (v : View) (me : Addr) : Bool := v.members.toList.all fun a => ¬me < a

/-- The members of `new` that `me` has to send its data to when the group moves from `old` to `new`.

    The old members divide the ring into segments. A joining member is served by the first old member
    ordered after it, and by the last old member when none is. -/
def recipients (old new : View) (me : Addr) : OrderedSet Addr :=
  if me ∈ old.members then
    new.members.filter fun a =>
      a ∉ old.members ∧ ((old.predecessor? me).all (· < a) ∧ a < me ∨ old.isLast me ∧ me < a)
  else .empty

end View
end ReplicaGroup
