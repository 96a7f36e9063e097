import ReplicaGroup.Log

/-! # The sequencer

The sequencer gives every proposal of the group its position, starting with 1, and sends the decisions
to its subscribers in batches of whatever was proposed meanwhile. Before it sends a batch it takes every
subscription that is queued, so that nothing is missed that was proposed after a subscription. -/

namespace ReplicaGroup

/-- What the sequencer is doing. -/
inductive Sequencer.Phase where
  /-- Waits for subscriptions and commands. -/
  | idle
  /-- Takes the commands that are queued. -/
  | collecting (batch : List Decision)
  /-- Takes the subscriptions that are queued, and then sends the batch. -/
  | admitting (batch : List Decision)

/-- The sequencer and its queues; `ι` is what tells inboxes of subscribers apart. -/
structure Sequencer (ι : Type) where
  /-- The last position given. -/
  position : Position := 0
  subscribers : OrderedMap Addr ι := .empty
  phase : Sequencer.Phase := .idle
  subscriptions : List (Addr × ι) := []
  commands : List LogCommand := []
  /-- Whether no more subscriptions can be queued. -/
  subscriptionsClosed : Bool := false
  /-- Whether no more commands can be queued. -/
  commandsClosed : Bool := false

/-- A batch of decisions for an inbox. -/
abbrev Delivery (ι : Type) := ι × List Decision

namespace Sequencer

variable {ι : Type}

/-- Queues a subscription. A later subscription of an address replaces an earlier one. -/
def subscribe (s : Sequencer ι) (addr : Addr) (inbox : ι) : Sequencer ι :=
  if s.subscriptionsClosed then s else { s with subscriptions := s.subscriptions ++ [(addr, inbox)] }

/-- Queues a command. -/
def enqueue (s : Sequencer ι) (c : LogCommand) : Sequencer ι :=
  if s.commandsClosed then s else { s with commands := s.commands ++ [c] }

/-- Makes an inbox a subscriber. -/
def enlist (s : Sequencer ι) (subscription : Addr × ι) : Sequencer ι :=
  { s with subscribers := s.subscribers.insert subscription.1 subscription.2 }

/-- Takes a command into the batch; a proposal gets the next position. -/
def collect (s : Sequencer ι) (batch : List Decision) : LogCommand → Sequencer ι
  | .propose value =>
    { s with
      position := s.position + 1
      phase := .collecting (batch ++ [⟨s.position + 1, value⟩]) }
  | .prune .. => { s with phase := .collecting batch }

/-- Sends a batch to the subscribers whose inbox is open, and forgets the others. -/
def send (s : Sequencer ι) (isOpen : ι → Bool) (batch : List Decision) :
    Sequencer ι × List (Delivery ι) :=
  let subscribers := s.subscribers.filter fun _ inbox => isOpen inbox
  ({ s with subscribers := subscribers, phase := .idle }, subscribers.values.map fun inbox => (inbox, batch))

/-- One step: one entry is taken off a queue, or the phase ends. `none` means that the sequencer has to
    wait. -/
def step (s : Sequencer ι) (isOpen : ι → Bool) : Option (Sequencer ι × List (Delivery ι)) :=
  match s.phase with
  | .idle =>
    match s.subscriptions, s.commands with
    | subscription :: rest, _ => some ({ s with subscriptions := rest }.enlist subscription, [])
    | [], command :: rest => some ({ s with commands := rest }.collect [] command, [])
    | [], [] => none
  | .collecting batch =>
    match s.commands, batch with
    | command :: rest, _ => some ({ s with commands := rest }.collect batch command, [])
    -- There was nothing but prunes.
    | [], [] => some ({ s with phase := .idle }, [])
    | [], _ :: _ => some ({ s with phase := .admitting batch }, [])
  | .admitting batch =>
    match s.subscriptions with
    | subscription :: rest => some ({ s with subscriptions := rest }.enlist subscription, [])
    | [] => some (s.send isOpen batch)

/-- A bound on the steps that are possible before something new is queued. -/
def work (s : Sequencer ι) : Nat :=
  3 * s.commands.length + s.subscriptions.length +
    match s.phase with
    | .idle => 0
    | .collecting _ => 2
    | .admitting _ => 1

theorem work_step_lt {s t : Sequencer ι} {isOpen : ι → Bool} {sent : List (Delivery ι)}
    (h : s.step isOpen = some (t, sent)) : t.work < s.work := by
  unfold step at h
  split at h
  · next hp =>
    split at h
    · next hs => cases h; simp [work, enlist, hp, hs]
    · next c rest hs hc => cases h; cases c <;> simp [work, collect, hp, hs, hc] <;> omega
    · cases h
  · next hp =>
    split at h
    · next c rest hc => cases h; cases c <;> simp [work, collect, hp, hc]
    · next hc => cases h; simp [work, hp, hc]
    · next hc => cases h; simp [work, hp, hc]
  · next hp =>
    split at h
    · next hs => cases h; simp [work, enlist, hp, hs]
    · next hs => cases h; simp [work, hp, hs]

/-- Steps until the sequencer has to wait. -/
def run (s : Sequencer ι) (isOpen : ι → Bool) : Sequencer ι × List (Delivery ι) :=
  match h : s.step isOpen with
  | none => (s, [])
  | some (t, sent) =>
    have := work_step_lt h
    let (u, later) := t.run isOpen
    (u, sent ++ later)
termination_by s.work

/-- Whether the sequencer has ended: nothing is left to do and no more commands can come. -/
def isFinished (s : Sequencer ι) : Bool :=
  s.commandsClosed && s.commands.isEmpty &&
    match s.phase with
    | .idle => true
    | .collecting _ | .admitting _ => false

end Sequencer
end ReplicaGroup
