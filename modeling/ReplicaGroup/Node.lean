import ReplicaGroup.Background
import ReplicaGroup.Engine.Handle
import ReplicaGroup.Network

/-! # A single replica, run by hand

A node is a replica whose surroundings are in the hands of its user: the user tells it events one at a
time, executes its storage requests, keeps the inboxes of its peers and moves the clock. After each of
these, `settle` lets the transfers go on until all of them wait. -/

namespace ReplicaGroup

/-- The inbox of a peer. -/
structure Inbox where
  isOpen : Bool := true
  messages : List Message := []
deriving Inhabited

/-- What a node did since it was last looked at. -/
structure Notices where
  commands : List LogCommand := []
  requests : List Request := []
  upcalls : List Upcall := []
  /-- Messages to peers, by address, then in the order of sending. -/
  sent : List (Addr × Message) := []
  /-- Responses of storage that the engine waits for. -/
  stored : List Response := []
  completed : List Completion := []
  stopped : List TransferId := []
deriving Inhabited

/-- A replica and what is around it. -/
structure Node where
  addr : Addr
  config : Config
  /-- The numbers that identifiers are drawn from, in order. -/
  draw : Nat → UInt64
  engine : Engine := {}
  background : Background := {}
  store : Store := .empty
  peers : Network Inbox := .empty
  now : Nat := 0
  logOpen : Bool := true
  upcallOpen : Bool := true
  /-- Whether anybody hears of responses of storage and of stopped transfers. -/
  eventsOpen : Bool := true
  /-- Whether anybody hears of completed transfers. -/
  completionsOpen : Bool := true
  notices : Notices := {}

namespace Node

/-- What the engine finds around it. -/
def host (n : Node) : Host where
  addr := n.addr
  draw := n.draw
  logOpen := n.logOpen
  storeOpen := n.background.storeOpen
  upcallOpen := n.upcallOpen
  transferOpen := n.background.isOpen

/-- Notes what happened. -/
def note (n : Node) (f : Notices → Notices) : Node := { n with notices := f n.notices }

/-- Carries out an effect of the engine. -/
def perform (n : Node) (effect : Effect) : Node :=
  match n.background.perform n.addr n.config effect with
  | some background =>
    let n := { n with background := background }
    match effect with
    | .request r => n.note fun x => { x with requests := x.requests ++ [r] }
    | _ => n
  | none =>
    match effect with
    | .propose v => n.note fun x => { x with commands := x.commands ++ [.propose v] }
    | .prune w => n.note fun x => { x with commands := x.commands ++ [.prune n.addr w] }
    | .upcall u => n.note fun x => { x with upcalls := x.upcalls ++ [u] }
    | _ => n

/-- Takes over the result of a step of the engine; its effects count also if it failed. -/
def take (n : Node) (s : Step) : Node × Option Fault :=
  (s.effects.foldl perform { n with engine := s.engine }, s.fault?)

/-- Tells the engine an event. -/
def handle (n : Node) (e : Event) : Node × Option Fault := n.take (n.engine.handle n.host e)

/-- Makes the engine serve a range as the only replica that has it. -/
def bootstrap (n : Node) (change : ViewChange) : Node × Option Fault :=
  n.take (n.engine.bootstrap n.host change)

/-! ### Transfers -/

/-- Whether a message reaches an address. -/
def carries (n : Node) (dest : Addr) (m : Message) : Except Fault Unit :=
  (n.peers.route Inbox.isOpen dest m).map fun _ => ()

/-- Puts a message into the inbox of a peer. -/
def send (n : Node) (dest : Addr) (m : Message) : Node :=
  match n.peers.route Inbox.isOpen dest m with
  | .ok (inbox, arrived) =>
    { n with peers := n.peers.insert dest { inbox with messages := inbox.messages ++ [arrived] } }
  | .error _ => n

/-- Carries out what a transfer reported. -/
def report (n : Node) (id : TransferId) : Transfer.Report → Node
  | .deed (.request r) => n.note fun x => { x with requests := x.requests ++ [r] }
  | .deed (.send dest m) => n.send dest m
  | .completed c =>
    if n.completionsOpen then n.note fun x => { x with completed := x.completed ++ [c] } else n
  | .stopped => if n.eventsOpen then n.note fun x => { x with stopped := x.stopped ++ [id] } else n

/-- Lets all transfers go on until they wait. -/
def settle (n : Node) : Node :=
  let (background, reports) := n.background.settle n.carries n.now
  reports.foldl (fun n r => n.report r.1 r.2) { n with background := background }

/-- Moves the clock, and wakes the transfers whose time is up. -/
def advance (n : Node) (ms : Nat) : Node :=
  { n with now := n.now + ms, background := n.background.expire (n.now + ms) }

/-! ### Storage -/

/-- Notes responses that the engine waits for. -/
def hear (n : Node) (replies : List Response) : Node :=
  if n.eventsOpen then n.note fun x => { x with stored := x.stored ++ replies } else n

/-- Executes the first `count` queued requests. -/
def serve (n : Node) (count : Nat) : Node × Background.Served :=
  let served := n.background.serve n.store count
  ({ n with background := served.background, store := served.store }.hear served.replies, served)

/-- Answers the first queued request with a response. -/
def answerFirst (n : Node) (response : Response) : Node :=
  let (background, reply?) := n.background.answerFirst response
  { n with background := background }.hear reply?.toList

/-! ### Peers -/

/-- Gives an address a fresh inbox. -/
def register (n : Node) (addr : Addr) : Node := { n with peers := n.peers.insert addr {} }

/-- Takes an address out of the network. -/
def unregister (n : Node) (addr : Addr) : Node := { n with peers := n.peers.erase addr }

/-- Closes an inbox, which stays registered. -/
def closeInbox (n : Node) (addr : Addr) : Node :=
  match n.peers.get? addr with
  | some inbox => { n with peers := n.peers.insert addr { inbox with isOpen := false } }
  | none => n

/-- What happened since the last look. -/
def look (n : Node) : Node × Notices :=
  let sent := n.peers.entries.flatMap fun e => e.2.messages.map fun m => (e.1, m)
  let peers := n.peers.filterMap fun _ inbox => some { inbox with messages := [] }
  ({ n with peers := peers, notices := {} }, { n.notices with sent := sent })

end Node
end ReplicaGroup
