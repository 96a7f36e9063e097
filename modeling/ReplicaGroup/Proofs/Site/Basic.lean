import ReplicaGroup.Node

/-! # A replica at work

A node handles an event at one go. At work, a replica takes a batch of decisions value by value, its
storage executes one request at a time, and its transfers go on one signal at a time, all of it in any
order. What its own tasks tell it is taken in any order, too. -/

namespace ReplicaGroup

/-- A value that a replica has applied, its engine just before, and what the engine did. -/
structure Application where
  position : Position
  value : Value
  before : Engine
  effects : List Effect

/-- A decision as it was applied. -/
def Application.decision (a : Application) : Position × Value := (a.position, a.value)

/-- A node between two events or within a batch of decisions. -/
structure Site where
  node : Node
  /-- Whether the engine takes events. -/
  running : Bool := true
  /-- The decisions of the batch at hand that are not in the log yet. -/
  batch? : Option (List Decision) := none
  /-- The released values that are not applied yet. -/
  released : List (Position × Value) := []
  /-- What was applied so far. -/
  applied : List Application := []

/-- Whether an event comes from outside, and is not a batch of decisions. -/
def Event.isExternal : Event → Bool
  | .submit _ | .changeView _ | .measure _ | .message _ | .stop => true
  | .decide _ | .stored _ | .completed _ | .stopped _ => false

/-- Queues the request that a transfer reports. -/
def Background.accept (b : Background) (id : TransferId) : Transfer.Report → Background
  | .deed (.request r) => b.submit r (some (.transfer id))
  | _ => b

namespace Node

/-- Carries out a report of a transfer, its request included. -/
def accept (n : Node) (id : TransferId) (report : Transfer.Report) : Node :=
  { n with background := n.background.accept id report }.report id report

/-- Lets a transfer take one step; `none` if it has to wait. -/
def stepTransfer (n : Node) (id : TransferId) : Option Node :=
  (n.background.transfers.find? fun t => t.id = id).bind fun t =>
    (t.step ⟨n.background.storeOpen, n.carries⟩ n.now).map fun (t, reports) =>
      let transfers := n.background.transfers.map fun u => if u.id = id then t else u
      reports.foldl (accept · id) { n with background := { n.background with transfers := transfers } }

end Node

namespace Site

/-- What can happen at a replica. -/
inductive Act where
  /-- It is told something from outside. -/
  | hear (e : Event)
  /-- A batch of decisions arrives. -/
  | deliver (decisions : List Decision)
  /-- It goes on with the batch. -/
  | advance
  /-- It takes one of the responses of its storage. -/
  | response (i : Nat)
  /-- It takes the news that one of its transfers has ended its run. -/
  | completion (i : Nat)
  /-- It takes the news that one of its transfers has stopped. -/
  | stopped (i : Nat)
  /-- Storage executes the first request. -/
  | execute
  /-- A transfer takes a step. -/
  | transfer (id : TransferId)
  /-- Time passes. -/
  | wait (ms : Nat)
  /-- Another replica is registered. -/
  | register (addr : Addr)

/-- Ends the engine. Its transfers are left without anybody to send them messages. -/
def halt (s : Site) : Site :=
  { s with running := false, node := { s.node with background := s.node.background.releaseAll } }

/-- Takes over the result of a step of the engine, which ends with a failure. -/
def take (s : Site) (step : Step) : Site :=
  let t : Site := { s with node := (s.node.take step).1 }
  if step.fault?.isSome then t.halt else t

/-- Tells the engine an event. -/
def handle (s : Site) (e : Event) : Site :=
  let t := s.take (s.node.engine.handle s.node.host e)
  match e with
  | .stop => t.halt
  | _ => t

/-- Applies a released value. -/
def apply (s : Site) (e : Position × Value) (rest : List (Position × Value)) : Site :=
  let step := s.node.engine.apply s.node.host e.1 e.2
  let application : Application := ⟨e.1, e.2, s.node.engine, step.effects⟩
  { s with released := rest, applied := s.applied ++ [application] }.take step

/-- Takes a decision into the log. -/
def insert (s : Site) (d : Decision) (rest : List Decision) : Site :=
  let (log, ready) := s.node.engine.log.insert d.position d.value
  { s with
    batch? := some rest
    released := ready
    node := { s.node with engine := { s.node.engine with log := log } } }

/-- Ends a batch. -/
def finish (s : Site) : Site := { s with batch? := none }.take (s.node.engine.prune s.node.host)

/-- Whether the engine waits for an event. -/
def isIdle (s : Site) : Bool := s.running && s.batch?.isNone && s.released.isEmpty

/-- The replica after an act; `none` if the act is not possible. -/
def act (s : Site) : Act → Option Site
  | .hear e => if s.isIdle ∧ e.isExternal then some (s.handle e) else none
  | .deliver decisions => if s.isIdle then some { s with batch? := some decisions } else none
  | .advance =>
    if s.running then
      match s.released, s.batch? with
      | e :: rest, _ => some (s.apply e rest)
      | [], some (d :: rest) => some (s.insert d rest)
      | [], some [] => some s.finish
      | [], none => none
    else none
  | .response i =>
    if s.isIdle then
      s.node.notices.stored[i]?.map fun r =>
        { s with node := s.node.note fun x => { x with stored := x.stored.eraseIdx i } }.handle (.stored r)
    else none
  | .completion i =>
    if s.isIdle then
      s.node.notices.completed[i]?.map fun c =>
        { s with node := s.node.note fun x => { x with completed := x.completed.eraseIdx i } }.handle (.completed c)
    else none
  | .stopped i =>
    if s.isIdle then
      s.node.notices.stopped[i]?.map fun id =>
        { s with node := s.node.note fun x => { x with stopped := x.stopped.eraseIdx i } }.handle (.stopped id)
    else none
  | .execute => if s.node.background.queue = [] then none else some { s with node := (s.node.serve 1).1 }
  | .transfer id => (s.node.stepTransfer id).map fun n => { s with node := n }
  | .wait ms => some { s with node := s.node.advance ms }
  | .register addr =>
    if s.node.peers.contains addr then none else some { s with node := s.node.register addr }

/-- The replica after acts, one after the other. -/
def run (s : Site) : List Act → Option Site
  | [] => some s
  | a :: rest => (s.act a).bind fun t => run t rest

/-- A replica that starts with nothing. -/
def fresh (addr : Addr) (config : Config) (draw : Nat → UInt64) (peers : Network Inbox) : Site :=
  { node := { addr, config, draw, peers } }

/-- A replica that starts to serve a range as the only one that has it, and has nothing stored. -/
def bootstrapped (addr : Addr) (config : Config) (draw : Nat → UInt64) (peers : Network Inbox)
    (change : ViewChange) : Site :=
  { node := (Node.bootstrap { addr, config, draw, peers } change).1 }

end Site
end ReplicaGroup
