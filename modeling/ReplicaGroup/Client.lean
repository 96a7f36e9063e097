import ReplicaGroup.Fault
import ReplicaGroup.Operation

/-! # Clients

A client submits operations to one replica and waits for each answer for a limited time. Answers are
matched by the identifier of the operation; the first one counts. -/

namespace ReplicaGroup

/-- An invocation that waits for its answer. -/
structure Invocation where
  /-- Tells invocations of one client apart. -/
  ticket : Nat
  id : OpId
  deadline : Nat
deriving DecidableEq, Inhabited

/-- The end of an invocation. -/
structure Resolution where
  ticket : Nat
  id : OpId
  outcome : Except Fault Outcome

/-- A client of a replica. -/
structure Client where
  /-- How long an invocation waits. -/
  timeout : Nat
  /-- The invocation that an answer is handed to, by the identifier of its operation. -/
  pending : OrderedMap OpId Nat := .empty
  waiting : List Invocation := []
  /-- Invocations that get no answer any more, because a later one of the same operation has taken their
      place. They end in a turn of their own. -/
  displaced : List Invocation := []
  /-- The number of invocations made. -/
  invoked : Nat := 0

namespace Client

instance : Inhabited Client := ⟨{ timeout := 0 }⟩

/-- Ends the waiting invocation with this ticket. -/
def finish (c : Client) (ticket : Nat) (outcome : Except Fault Outcome) : Client × List Resolution :=
  ({ c with waiting := c.waiting.filter (·.ticket ≠ ticket) },
    (c.waiting.filter (·.ticket = ticket)).map fun i => ⟨ticket, i.id, outcome⟩)

/-- Ends the invocations whose deadline has come, the earliest deadline first. -/
def expire (c : Client) (now : Nat) : Client × List Resolution :=
  let due := (c.waiting.filter (·.deadline ≤ now)).mergeSort fun a b => a.deadline ≤ b.deadline
  ({ c with
      waiting := c.waiting.filter fun i => ¬i.deadline ≤ now
      pending := due.foldl (fun m i => m.erase i.id) c.pending },
    due.map fun i => ⟨i.ticket, i.id, .ok (.failed .timeout)⟩)

/-- Takes the place of the waiting invocation with this ticket. -/
def displace (c : Client) (ticket : Nat) : Client :=
  { c with
    waiting := c.waiting.filter (·.ticket ≠ ticket)
    displaced := c.displaced ++ c.waiting.filter (·.ticket = ticket) }

/-- Ends the displaced invocations. -/
def endDisplaced (c : Client) : Client × List Resolution :=
  ({ c with displaced := [] }, c.displaced.map fun i => ⟨i.ticket, i.id, .error .replyLost⟩)

/-- Starts an invocation; `isOpen` tells whether the replica takes events. An earlier invocation of the
    same operation is displaced. Where the operation cannot be submitted, the invocation fails at once and
    its entry stays. -/
def invoke (c : Client) (now : Nat) (isOpen : Bool) (id : OpId) : Client × List Resolution :=
  let invocation : Invocation := ⟨c.invoked, id, now + c.timeout⟩
  let cleared := match c.pending.get? id with
    | some earlier => c.displace earlier
    | none => c
  let entered := { cleared with
    pending := cleared.pending.insert id invocation.ticket
    invoked := cleared.invoked + 1 }
  -- An invocation that may not wait at all ends before it can be answered.
  if isOpen then { entered with waiting := entered.waiting ++ [invocation] }.expire now
  else (entered, [⟨invocation.ticket, id, .error .channelClosed⟩])

/-- Hands an answer to the invocation that waits for it; any other answer is ignored. -/
def deliver (c : Client) (answer : Answer) : Client × List Resolution :=
  match c.pending.get? answer.id with
  | some ticket => { c with pending := c.pending.erase answer.id }.finish ticket (.ok answer.outcome)
  | none => (c, [])

end Client
end ReplicaGroup
