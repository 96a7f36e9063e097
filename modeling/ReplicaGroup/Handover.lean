import ReplicaGroup.Group

/-! # A handover

A rehearsal of what a group is for: one replica takes writes, a second one joins and receives the data,
and a read from the second one has to give back every write. -/

namespace ReplicaGroup

/-- What a handover showed. -/
structure Handover where
  /-- The values that were written last. -/
  written : OrderedMap Key Bytes
  view : View
  /-- What the second replica answers to a read of everything. -/
  results : OrderedMap Key Bytes
  more : Bool

namespace Handover

/-- Why a handover came to nothing. -/
inductive Failure where
  | fault (f : Fault)
  /-- A write was not acknowledged. -/
  | refused (key : Key)
  /-- The second replica does not serve the range. -/
  | notSynced
  /-- The second replica did not answer the read. -/
  | unanswered
deriving DecidableEq, Inhabited

/-- The text of a failure. -/
def Failure.message : Failure → String
  | fault f => f.message TransferId.text
  | refused key => "put of " ++ key.text ++ " failed"
  | notSynced => "the joining replica was not synced"
  | unanswered => "the joining replica did not answer"

/-- The key and the value of a write; few keys are written often, and many seldom. -/
def entry (i : Nat) : Key × Bytes :=
  let bytes (s : String) : Bytes := s.toByteArray.data.toList
  (⟨bytes ("key-" ++ toString (i * i % 257))⟩, bytes ("value-" ++ toString i))

/-- A group without replicas. -/
def start (config : Config) : Group where
  config := config
  range := .full
  draw replica n := (replica * 4294967296 + n).toUInt64

/-- Adds a replica and waits until nobody has anything to do. -/
def join (g : Group) (name : String) : Except Failure Group :=
  match g.add (.name name) with
  | (g, none) => .ok g.quiesce
  | (_, some f) => .error (.fault f)

/-- Has a replica's client invoke an operation, and answers the outcome, if there is one. -/
def ask (g : Group) (replica : Nat) (id : Nat) (body : Operation.Body) : Group × Option Outcome :=
  let op : Operation := ⟨⟨id.toUInt64⟩, body⟩
  let g := ({ g with resolved := [] }.invoke replica op).quiesce
  (g, g.resolved.findSome? fun r => if r.2.id = op.id then r.2.outcome.toOption else none)

/-- Has the first replica take a write. -/
def write (g : Group) (id : Nat) (e : Key × Bytes) : Except Failure Group :=
  match ask g 0 id (.put e.1 e.2) with
  | (g, some (.put _)) => .ok g
  | (_, _) => .error (.refused e.1)

/-- Lets the first replica take `count` writes and the second one receive them. -/
def run (config : Config) (count : Nat) : Except Failure Handover := do
  let entries := (List.range count).map entry
  let g ← join (start config) "replica-0"
  let g ← entries.zipIdx.foldlM (fun g e => write g e.2 e.1) g
  let g ← join g "replica-1"
  if g.replicas[1]?.any fun r => r.synced then
    match ask g 1 count (.range (.everything .full)) with
    | (g, some (.range results more)) => return ⟨.ofList entries, g.view, results, more⟩
    | (_, _) => throw .unanswered
  else throw .notSynced

/-- The keys whose value got lost or changed. -/
def mismatched (h : Handover) : List Key := h.written.keys.filter fun k => h.results.get? k ≠ h.written.get? k

/-- Whether the second replica has exactly what was written. -/
def isFaithful (h : Handover) : Bool := h.mismatched.isEmpty && h.results.size == h.written.size

/-- What a handover showed, in a few lines. -/
def report (h : Handover) : List String :=
  ["wrote " ++ toString h.written.size ++ " keys",
    "view " ++ toString h.view.number ++ " synced",
    "the joining replica returned " ++ toString h.results.size ++ " keys (more: " ++ toString h.more ++
      "), " ++ toString h.mismatched.length ++ " mismatched"]

end Handover
end ReplicaGroup
