import ReplicaGroup.Fault
import ReplicaGroup.Store.Basic

/-! # Value filters and range actions

A filter decides which values a scan returns and what they look like there. An action is a side effect
on the entries a scan returns: it is prepared before the scan, sees each returned entry, and takes
effect when it is committed after the scan. What an action does depends on the entries it has seen. -/

namespace ReplicaGroup

/-- Decides whether a value is part of the result and what it looks like there; `none` drops it. -/
structure ValueFilter where
  transform : Bytes → Option Bytes

/-- Keeps the values that start with `head`, unchanged. -/
def ValueFilter.startingWith (head : Bytes) : ValueFilter :=
  ⟨fun value => if head.isPrefixOf value then some value else none⟩

/-- An entry as an action sees it: the value after filtering, and the version to stamp effects with. -/
structure Visit where
  key : Key
  value : Bytes
  version : Version
deriving DecidableEq, Inhabited

/-- A call of an action. -/
inductive ActionCall where
  | prepare
  | process (visit : Visit)
  | commit
  | abort
deriving DecidableEq, Inhabited

/-- A side effect on the entries a scan returns. -/
structure RangeAction where
  /-- The name that its calls are recorded under. -/
  name : String
  /-- Whether the action can start. -/
  prepare : Except Fault Unit
  /-- Looks at an entry after those seen before, and answers the new stored size of the entry: `none` if
      it stays as it is, `some 0` if it is removed. -/
  process : List Visit → Visit → Except Fault (Option Nat)
  /-- Takes effect on the store for the entries seen; a failing effect may leave changes behind. -/
  commit : List Visit → Store → Store × Except Fault Unit

namespace RangeAction

/-- Does nothing. -/
def noop : RangeAction where
  name := "noop"
  prepare := .ok ()
  process _ _ := .ok none
  commit _ s := (s, .ok ())

/-- Removes every returned entry with all its versions once the scan succeeds. -/
def delete : RangeAction where
  name := "delete"
  prepare := .ok ()
  process _ _ := .ok (some 0)
  commit seen s := (seen.foldl (fun s v => s.delete v.key) s, .ok ())

end RangeAction
end ReplicaGroup
