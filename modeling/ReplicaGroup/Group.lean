import ReplicaGroup.Background
import ReplicaGroup.Client
import ReplicaGroup.Engine.Handle
import ReplicaGroup.Network
import ReplicaGroup.Sequencer
import ReplicaGroup.Supervisor

/-! # A running group

A group is a sequencer, a network and replicas, each with an engine, a store, transfers and a client.
Whoever has something to do is noted in a list, and they take turns in that order; a turn works off all
that is queued. Time passes only when the clock is moved, and only when nobody has anything to do. -/

namespace ReplicaGroup

/-- A replica of a group. -/
structure Replica where
  addr : Addr
  client : Client
  engine : Engine := {}
  /-- Whether the engine takes events. -/
  running : Bool := true
  inbox : List Event := []
  store : Store := .empty
  background : Background := {}
  upcalls : List Upcall := []
  synced : Bool := false

namespace Replica

instance : Inhabited Replica := ⟨{ addr := default, client := default }⟩

/-- What is known about a replica's catching up. -/
inductive Synced where
  | yes
  | no
  /-- It is not synced, and will not be any more. -/
  | never
deriving DecidableEq, Inhabited

/-- Whether the replica serves the whole range. -/
def syncedState (r : Replica) : Synced := if r.synced then .yes else if r.running then .no else .never

end Replica

/-- Who can take a turn. -/
inductive Activity where
  | sequencer
  | engine (replica : Nat)
  | storage (replica : Nat)
  | transfers (replica : Nat)
  | upcalls (replica : Nat)
  | client (replica : Nat)
deriving DecidableEq, Inhabited

/-- A replica group. Inboxes are told apart by the replica's number; `none` is the inbox of a replica
    that did not come into being. -/
structure Group where
  config : Config
  range : KeyRange
  /-- The numbers that each replica's identifiers are drawn from, in order. -/
  draw : Nat → Nat → UInt64
  now : Nat := 0
  view : View := .none
  replicas : Array Replica := #[]
  network : Network (Option Nat) := .empty
  sequencer : Sequencer (Option Nat) := {}
  leader? : Option Nat := none
  supervisor : Supervisor := {}
  /-- Who has something to do, in the order of their turns. -/
  ready : List Activity := []
  /-- The invocations that ended since the last look, each with its replica. -/
  resolved : List (Nat × Resolution) := []

namespace Group

/-- Notes that somebody has something to do. -/
def wake (g : Group) (a : Activity) : Group := if a ∈ g.ready then g else { g with ready := g.ready ++ [a] }

/-- Changes a replica. -/
def update (g : Group) (i : Nat) (f : Replica → Replica) : Group :=
  { g with replicas := g.replicas.modify i f }

/-- Whether an inbox takes events. -/
def isOpen (g : Group) : Option Nat → Bool
  | some i => g.replicas[i]?.any (·.running)
  | none => false

/-- Queues an event for a replica that takes events. -/
def post (g : Group) (i : Nat) (e : Event) : Group :=
  if g.isOpen (some i) then
    (g.update i fun r => { r with inbox := r.inbox ++ [e] }).wake (.engine i)
  else g

/-- Whether a message from one replica reaches an address. -/
def carries (g : Group) (dest : Addr) (m : Message) : Except Fault Unit :=
  (g.network.route g.isOpen dest m).map fun _ => ()

/-- Sends a message of a transfer. -/
def send (g : Group) (dest : Addr) (m : Message) : Group :=
  match g.network.route g.isOpen dest m with
  | .ok (some i, arrived) => g.post i (.message arrived)
  | .ok (none, _) | .error _ => g

/-- Queues a command for the sequencer. -/
def command (g : Group) (c : LogCommand) : Group :=
  { g with sequencer := g.sequencer.enqueue c }.wake .sequencer

/-- Replaces the background work of a replica, and wakes whom it gives something to do. -/
def setBackground (g : Group) (i : Nat) (b : Background) : Group :=
  let g := g.update i fun r => { r with background := b }
  let g := if b.woken.isEmpty then g else g.wake (.transfers i)
  if b.queue.isEmpty then g else g.wake (.storage i)

/-- Replaces the client of a replica and notes the invocations that ended; displaced ones make the client
    take a turn. -/
def setClient (g : Group) (i : Nat) (client : Client) (ended : List Resolution) : Group :=
  let g := { g.update i fun r => { r with client } with resolved := g.resolved ++ ended.map (i, ·) }
  if client.displaced.isEmpty then g else g.wake (.client i)

/-! ### Turns -/

/-- What the engine of a replica finds around it. -/
def host (g : Group) (i : Nat) (r : Replica) : Host where
  addr := r.addr
  draw := g.draw i
  logOpen := !g.supervisor.cancelled
  storeOpen := r.background.storeOpen
  upcallOpen := !g.supervisor.cancelled
  transferOpen := r.background.isOpen

/-- Carries out an effect of a replica's engine. -/
def perform (i : Nat) (g : Group) (effect : Effect) : Group :=
  match g.replicas[i]? with
  | none => g
  | some r =>
    match r.background.perform r.addr g.config effect with
    | some b => g.setBackground i b
    | none =>
      match effect with
      | .propose v => g.command (.propose v)
      | .prune w => g.command (.prune r.addr w)
      | .upcall u => (g.update i fun r => { r with upcalls := r.upcalls ++ [u] }).wake (.upcalls i)
      | _ => g

/-- Takes over the result of a step of a replica's engine; its effects count also if it failed. -/
def take (g : Group) (i : Nat) (s : Step) : Group :=
  s.effects.foldl (perform i) (g.update i fun r => { r with engine := s.engine })

/-- Ends the engine of a replica. Its transfers are left without anybody to send them messages. -/
def endEngine (g : Group) (i : Nat) : Group :=
  match g.replicas[i]? with
  | none => g
  | some r =>
    (g.update i fun r => { r with running := false, inbox := [] }).setBackground i r.background.releaseAll

/-- Lets an engine handle events until it ends, by being stopped or by failing. -/
def handleAll (i : Nat) : List Event → Group → Group
  | [], g => g
  | e :: rest, g =>
    match g.replicas[i]? with
    | none => g
    | some r =>
      let s := r.engine.handle (g.host i r) e
      let g := g.take i s
      -- An engine that ends leaves the rest unhandled.
      match s.fault?, e with
      | some f, _ => { g with supervisor := g.supervisor.report f }.endEngine i
      | none, .stop => g.endEngine i
      | none, _ => handleAll i rest g

/-- Lets the transfers of a replica go on. -/
def runTransfers (g : Group) (i : Nat) (r : Replica) : Group :=
  let (b, reports) := r.background.settle g.carries g.now
  reports.foldl
    (fun g report =>
      match report with
      -- The background has queued it.
      | (_, .deed (.request _)) => g
      | (_, .deed (.send dest m)) => g.send dest m
      | (_, .completed c) => g.post i (.completed c)
      | (id, .stopped) => g.post i (.stopped id))
    (g.setBackground i b)

/-- Executes the queued storage requests of a replica. -/
def runStorage (g : Group) (i : Nat) (r : Replica) : Group :=
  let served := r.background.serve r.store r.background.queue.length
  let g := (g.update i fun r => { r with store := served.store }).setBackground i served.background
  served.replies.foldl (fun g response => g.post i (.stored response)) g

/-- Hands the upcalls of a replica to its client. -/
def runUpcalls (g : Group) (i : Nat) (r : Replica) : Group :=
  let (client, resolutions) := r.upcalls.foldl
    (fun (client, resolutions) u =>
      match u with
      | .answer a =>
        let (client, more) := client.deliver a
        (client, resolutions ++ more)
      | _ => (client, resolutions))
    (r.client, [])
  let synced := r.synced || r.upcalls.any (· = .synced)
  (g.update i fun r => { r with upcalls := [], synced }).setClient i client resolutions

/-- Ends the displaced invocations of a replica's client. -/
def runClient (g : Group) (i : Nat) (r : Replica) : Group :=
  let (client, resolutions) := r.client.endDisplaced
  g.setClient i client resolutions

/-- Lets the sequencer work off its queues. -/
def runSequencer (g : Group) : Group :=
  let (s, deliveries) := g.sequencer.run g.isOpen
  deliveries.foldl
    (fun g d =>
      match d with
      | (some i, batch) => g.post i (.decide batch)
      | (none, _) => g)
    { g with sequencer := s }

/-- The turn of somebody who has something to do. -/
def turn (g : Group) (a : Activity) : Group :=
  let on (i : Nat) (f : Replica → Group) : Group := (g.replicas[i]?.map f).getD g
  match a with
  | .sequencer => g.runSequencer
  | .engine i => on i fun r => handleAll i r.inbox (g.update i fun r => { r with inbox := [] })
  | .storage i => on i (g.runStorage i)
  | .transfers i => on i (g.runTransfers i)
  | .upcalls i => on i (g.runUpcalls i)
  | .client i => on i (g.runClient i)

/-- Lets everybody take turns until nobody has anything to do, for `turns` turns at most. -/
def settle : Nat → Group → Group
  | 0, g => g
  | turns + 1, g =>
    match g.ready with
    | [] => g
    | a :: rest => settle turns ({ g with ready := rest }.turn a)

/-- Far more turns than the work of one moment takes. -/
def patience : Nat := 1000000

/-- Lets everybody take turns until nobody has anything to do. -/
def quiesce (g : Group) : Group := g.settle patience

/-! ### What users of a group do -/

/-- Queues an event for a replica; fails if the replica takes no events. -/
def tell (g : Group) (i : Nat) (e : Event) : Group × Option Fault :=
  if g.isOpen (some i) then (g.post i e, none) else (g, some .channelClosed)

/-- Registers a new replica's inbox and subscribes it to the log. -/
def connect (g : Group) (addr : Addr) (inbox : Option Nat) : Group :=
  { g with
    network := g.network.insert addr inbox
    sequencer := g.sequencer.subscribe addr inbox }.wake .sequencer

/-- The view with one more member, and the quorum it calls for: more than half of its members. -/
def nextView (g : Group) (addr : Addr) : ViewChange :=
  let view : View := ⟨g.view.number + 1, g.view.members.insert addr⟩
  ⟨view, view.members.size / 2 + 1, g.range⟩

/-- Adds a new replica and installs the view it joins with. -/
def enroll (g : Group) (addr : Addr) (view : View) : Group :=
  { g with
    view := view
    replicas := g.replicas.push { addr, client := { timeout := g.config.opTimeout } } }

/-- Starts a replica and grows the group by it. The first replica serves the range right away; a later
    one joins through a view change that the first one proposes. If the first one takes no events any
    more, the new replica does not come into being, but its inbox stays connected. -/
def add (g : Group) (addr : Addr) : Group × Option Fault :=
  if g.supervisor.cancelled then (g, some .channelClosed)
  else
    let change := g.nextView addr
    let i := g.replicas.size
    match g.leader? with
    | none =>
      let g := (g.connect addr (some i)).enroll addr change.view
      let g := match g.replicas[i]? with
        | some r => g.take i (r.engine.bootstrap (g.host i r) change)
        | none => g
      ({ g with leader? := some i }, none)
    | some leader =>
      if g.isOpen (some leader) then
        (((g.connect addr (some i)).post leader (.changeView change)).enroll addr change.view, none)
      else (g.connect addr none, some .channelClosed)

/-- Starts the invocation of an operation by the client of a replica. -/
def invoke (g : Group) (i : Nat) (op : Operation) : Group :=
  match g.replicas[i]? with
  | none => g
  | some r =>
    let (client, resolutions) := r.client.invoke g.now r.running op.id
    (g.setClient i client resolutions).post i (.submit op)

/-- Moves the clock, and wakes whose time is up. -/
def advance (g : Group) (ms : Nat) : Group :=
  let now := g.now + ms
  (List.range g.replicas.size).foldl
    (fun g i =>
      match g.replicas[i]? with
      | none => g
      | some r =>
        let (client, resolutions) := r.client.expire now
        (g.setClient i client resolutions).setBackground i (r.background.expire now))
    { g with now := now }

/-- Cancels everything: no engine, transfer or storage does anything any more; clients are left alone. -/
def cancel (g : Group) : Group :=
  { g with
    supervisor := { g.supervisor with cancelled := true }
    ready := g.ready.filter fun
      | .client _ => true
      | _ => false
    replicas := g.replicas.map fun r =>
      { r with running := false, inbox := [], upcalls := [], background := { storeOpen := false } } }

/-- Asks the supervisor once: the next fault of an activity, after which everything is cancelled. -/
def check (g : Group) : Group × Option Fault :=
  let (supervisor, fault?) := g.supervisor.next?
  let g := { g with supervisor := supervisor }
  (if fault?.isSome then g.cancel else g, fault?)

end Group
end ReplicaGroup
