import ReplicaGroup.Scan.Action
import ReplicaGroup.Scan.Limit

/-! # Range scans

A scan walks the store in key order from the range's first key. For every key it selects the newest
version not above the ceiling, then applies the filter, the limit and the action, in this order. The
action commits only after the whole scan has gone well. -/

namespace ReplicaGroup

/-- What to read from a range. -/
structure Query where
  range : KeyRange
  limit : Limit
  filter? : Option ValueFilter
  action? : Option RangeAction

/-- Everything in `range`, without side effect. -/
def Query.everything (range : KeyRange) : Query := ⟨range, .unlimited, none, none⟩

/-- A query together with the versions it works at. -/
structure Scan where
  id : OpId
  query : Query
  /-- The version that the action stamps its effects with. -/
  actionVersion : Version
  /-- The newest version that the scan sees. -/
  ceiling : Version

/-- A read of everything in `range` at `ceiling`. -/
def Scan.read (id : OpId) (range : KeyRange) (ceiling : Version) : Scan :=
  ⟨id, .everything range, 0, ceiling⟩

/-- The change of stored bytes and keys that a request causes. -/
structure SizeDelta where
  bytes : Int
  keys : Int
deriving DecidableEq, Inhabited

namespace SizeDelta

/-- No change. -/
def zero : SizeDelta := ⟨0, 0⟩

/-- One change after another. -/
def add (a b : SizeDelta) : SizeDelta := ⟨a.bytes + b.bytes, a.keys + b.keys⟩

/-- The change that an action announces for an entry of `stored` bytes. The new size is read as a signed
    64-bit number. -/
def announced (stored : Nat) : Option Nat → SizeDelta
  | none => zero
  | some 0 => ⟨-stored, -1⟩
  | some size => ⟨Int.bmod size UInt64.size - stored, 0⟩

end SizeDelta

/-- The entries a scan returns. -/
structure ScanResult where
  id : OpId
  results : OrderedMap Key Bytes
  /-- The limit cut the scan short while more results remained. -/
  more : Bool
  delta : SizeDelta
deriving DecidableEq, Inhabited

/-- A key of the range with its stored value at the ceiling and the value the filter makes of it. -/
structure Candidate where
  key : Key
  stored : Bytes
  value : Bytes
deriving DecidableEq, Inhabited

/-- How far a scan got: the entries it returns, and the entry that failed. -/
structure Walk where
  visits : List Visit
  delta : SizeDelta
  more : Bool
  failed? : Option (Visit × Fault)
deriving DecidableEq, Inhabited

/-- What a scan did. -/
structure ScanOutcome where
  result : Except Fault ScanResult
  store : Store
  /-- The calls of the action, in order. -/
  calls : List ActionCall

namespace Scan

/-- The value of a history that the scan returns, with the stored value it comes from. -/
def select (s : Scan) (k : Key) (h : History) : Option Candidate := do
  let stored ← h.visible? s.ceiling
  let value ← match s.query.filter? with
    | some filter => filter.transform stored
    | none => some stored
  return ⟨k, stored, value⟩

/-- The candidates of a walk from the range's first key on. An excluded first key is skipped; any other
    key outside the range ends the walk. -/
def candidates (s : Scan) : List (Key × History) → List Candidate
  | [] => []
  | (k, h) :: rest =>
    if s.query.range.contains k then
      match s.select k h with
      | some c => c :: candidates s rest
      | none => candidates s rest
    else if k = s.query.range.start ∧ ¬s.query.range.passed k then candidates s rest
    else []

/-- Takes candidates while the budget lasts and hands each to the action, which has seen `seen` before.
    After the last one that fits, only whether there is another candidate is looked at. -/
def visitAll (action : RangeAction) (version : Version) (seen : List Visit) (budget : Budget) :
    List Candidate → Walk
  | [] => ⟨[], .zero, false, none⟩
  | c :: rest =>
    match budget.take? c.value with
    | none => ⟨[], .zero, true, none⟩
    | some left =>
      let visit : Visit := ⟨c.key, c.value, version⟩
      match action.process seen visit with
      | .error fault => ⟨[], .zero, false, some (visit, fault)⟩
      | .ok size? =>
        let later : Walk :=
          if left.isOpen then visitAll action version (seen ++ [visit]) left rest
          else ⟨[], .zero, !rest.isEmpty, none⟩
        { later with
          visits := visit :: later.visits
          delta := (SizeDelta.announced c.stored.length size?).add later.delta }

/-- The action of the query; a query without one has the action that does nothing. -/
def action (s : Scan) : RangeAction := s.query.action?.getD .noop

/-- The scan's walk over a store. -/
def walk (s : Scan) (store : Store) : Walk :=
  visitAll s.action s.actionVersion [] (.full s.query.limit)
    (s.candidates (store.startingAt s.query.range.start))

/-- Runs the scan. The action is committed once if nothing failed before, and aborted last if looking at
    an entry or committing failed. -/
def run (s : Scan) (store : Store) : ScanOutcome :=
  match s.action.prepare with
  | .error fault => ⟨.error fault, store, [.prepare]⟩
  | .ok () =>
    let walk := s.walk store
    let calls := .prepare :: walk.visits.map .process
    match walk.failed? with
    | some (visit, fault) => ⟨.error fault, store, calls ++ [.process visit, .abort]⟩
    | none =>
      let results := OrderedMap.ofList (walk.visits.map fun v => (v.key, v.value))
      match s.action.commit walk.visits store with
      | (store, .error fault) => ⟨.error fault, store, calls ++ [.commit, .abort]⟩
      | (store, .ok ()) => ⟨.ok ⟨s.id, results, walk.more, walk.delta⟩, store, calls ++ [.commit]⟩

end Scan
end ReplicaGroup
