import ReplicaGroup.Proofs.Scan.Results
import ReplicaGroup.Proofs.Transfer.Receiving

/-! # A transfer between its two sides

The two sides of one transfer, each beside the storage of its own replica. The channels between them lose
nothing and keep the order, and no side waits so long that it gives up; a side does what its turn tells it one
deed at a time, so whatever else happens can happen in between. Whatever reaches the receiver apart from the
transfer does so as a stray. -/

namespace ReplicaGroup

/-! ### One side -/

/-- A side of a transfer and what is queued around it. -/
structure Party (σ : Type) where
  progress : Progress σ
  /-- What the side still has to do of its turn. -/
  todo : List Deed := []
  inbox : List Message := []
  /-- The requests that its storage has not executed yet. -/
  queue : List Request := []
  reply? : Option Response := none
  store : Store
  /-- The requests that its storage has executed. -/
  executed : List Request := []

namespace Party
variable {σ : Type}

/-- What happens at one side. -/
inductive Act where
  /-- The side does the next deed of its turn. -/
  | perform
  /-- The side takes the next message, or the response that it waits for. -/
  | take
  /-- Storage executes the oldest request. -/
  | execute
deriving DecidableEq

/-- A side that begins with a turn. -/
def ofTurn (store : Store) (turn : Turn σ) : Party σ := { progress := turn.progress, todo := turn.deeds, store }

/-- The side in a new turn. -/
def enter (p : Party σ) (turn : Turn σ) : Party σ := { p with progress := turn.progress, todo := turn.deeds }

/-- One act at a side that listens and reacts in the given way, with the messages that it sends; `none` if the
    side has to wait. -/
def step? (listens : σ → Bool) (react : Signal → σ → Turn σ) (p : Party σ) : Act → Option (Party σ × List Message)
  | .perform =>
    match p.todo with
    | [] => none
    | .request r :: rest => some ({ p with todo := rest, queue := p.queue ++ [r] }, [])
    | .send _ m :: rest => some ({ p with todo := rest }, [m])
  | .take =>
    match p.todo, p.progress with
    | [], .waiting s =>
      if listens s then
        match p.inbox with
        | [] => none
        | m :: rest => some ({ p with inbox := rest }.enter (react (.message m) s), [])
      else p.reply?.map fun r => ({ p with reply? := none }.enter (react (.response r) s), [])
    | _, _ => none
  | .execute =>
    match p.queue with
    | [] => none
    | r :: rest =>
      some ({ p with
        queue := rest
        store := (r.execute p.store).store
        reply? := if r.wantsReply then some (r.execute p.store).response else p.reply?
        executed := p.executed ++ [r] }, [])

/-- What a side has returned; a side returns when it has done all of its last turn. -/
def returned? (p : Party σ) : Option (Except Fault Metadata) :=
  match p.todo, p.progress with
  | [], .ended outcome => some outcome
  | _, _ => none

end Party

/-! ### Both sides -/

/-- A transfer with everything that it depends on. -/
structure Shipment where
  id : TransferId
  source : Addr
  recipient : Addr
  range : KeyRange
  snapshot : Position
  version : Version
  scanId : OpId
  /-- The entries of a chunk, as the sender is configured. -/
  chunkEntries : Nat
  /-- The chunks that one grant allows, as the receiver is configured. -/
  quota : Nat
  /-- What the sender's replica has stored. -/
  held : Store
  /-- What the receiver's replica has stored before. -/
  previous : Store

/-- Both sides of a transfer and what is on the way between them. -/
structure Exchange where
  sender : Party Sender
  receiver : Party Receiver
  /-- The messages on the way to the receiver. -/
  forth : List Message := []
  /-- The messages on the way to the sender. -/
  back : List Message := []
  /-- Whether an announcement has reached the receiver. -/
  introduced : Bool := false

/-- What happens between two sides. -/
inductive Exchange.Act where
  | sender (act : Party.Act)
  | receiver (act : Party.Act)
  /-- The first message on the way to the receiver gets there. -/
  | reachReceiver
  /-- The first message on the way to the sender gets there. -/
  | reachSender
  /-- A message that is not of the transfer gets to the receiver. -/
  | stray (m : Message)
deriving DecidableEq

/-- Whether an act is not of the transfer. -/
def Exchange.Act.isStray : Act → Bool
  | .stray _ => true
  | .sender _ | .receiver _ | .reachReceiver | .reachSender => false

/-- Whether a message announces a transfer. -/
def Message.isInitiate : Message → Bool
  | .initiate _ => true
  | .grant .. | .data .. => false

/-- Links of a side to its open storage and to the other side alone. -/
def Links.towards (addr : Addr) : Links := ⟨true, fun a _ => if a = addr then .ok () else .error (.unknownDestination a)⟩

namespace Shipment

def metadata (c : Shipment) : Metadata := ⟨some c.snapshot, some c.version⟩

def outbound (c : Shipment) : Outbound := ⟨c.id, c.recipient, c.range, c.metadata⟩

/-- The entries to be transferred: those of the range that the sender's store shows at the version before. -/
def captured (c : Shipment) : Entries := (Scan.read c.scanId c.range c.version.pred).shown c.held

/-- The request that writes entries of the transfer, one version below that of the view change. -/
def write (c : Shipment) (es : Entries) : Request :=
  .snapshot c.snapshot (es.map fun e => .put e.1 e.2 c.version.pred)

/-- Both sides at the start. -/
def start (c : Shipment) : Exchange where
  sender := .ofTurn c.held (Sender.start (.towards c.recipient) c.outbound c.source c.chunkEntries c.scanId)
  receiver := { progress := .waiting ⟨c.quota, .opening⟩, store := c.previous }

/-- Whether a message is neither an announcement nor data of the transfer. -/
def passes (c : Shipment) (m : Message) : Bool := !m.isInitiate && !m.isData c.id

/-- One act between the sides. Announcements can go astray to the receiver only after that of the transfer. -/
def step? (c : Shipment) (x : Exchange) : Exchange.Act → Option Exchange
  | .sender act =>
    (x.sender.step? Sender.isListening (fun signal s => s.signal (.towards c.recipient) signal) act).map fun r =>
      { x with sender := r.1, forth := x.forth ++ r.2 }
  | .receiver act =>
    (x.receiver.step? Receiver.isListening (fun signal s => s.signal (.towards c.source) signal) act).map fun r =>
      { x with receiver := r.1, back := x.back ++ r.2 }
  | .reachReceiver =>
    match x.forth with
    | [] => none
    | m :: rest =>
      some { x with
        forth := rest
        receiver := { x.receiver with inbox := x.receiver.inbox ++ [m] }
        introduced := x.introduced || m.isInitiate }
  | .reachSender =>
    match x.back with
    | [] => none
    | m :: rest => some { x with back := rest, sender := { x.sender with inbox := x.sender.inbox ++ [m] } }
  | .stray m =>
    if c.passes m || (x.introduced && m.isInitiate) then
      some { x with receiver := { x.receiver with inbox := x.receiver.inbox ++ [m] } }
    else none

/-- The acts, by what they do. -/
inductive Goes (c : Shipment) (x : Exchange) : Exchange.Act → Exchange → Prop
  | sender {act : Party.Act} {p : Party Sender} {sent : List Message}
    (h : x.sender.step? Sender.isListening (fun signal s => s.signal (.towards c.recipient) signal) act = some (p, sent)) :
    Goes c x (.sender act) { x with sender := p, forth := x.forth ++ sent }
  | receiver {act : Party.Act} {p : Party Receiver} {sent : List Message}
    (h : x.receiver.step? Receiver.isListening (fun signal s => s.signal (.towards c.source) signal) act = some (p, sent)) :
    Goes c x (.receiver act) { x with receiver := p, back := x.back ++ sent }
  | reachReceiver {m : Message} {rest : List Message} (h : x.forth = m :: rest) :
    Goes c x .reachReceiver
      { x with
        forth := rest
        receiver := { x.receiver with inbox := x.receiver.inbox ++ [m] }
        introduced := x.introduced || m.isInitiate }
  | reachSender {m : Message} {rest : List Message} (h : x.back = m :: rest) :
    Goes c x .reachSender { x with back := rest, sender := { x.sender with inbox := x.sender.inbox ++ [m] } }
  | stray {m : Message} (h : c.passes m = true ∨ x.introduced = true ∧ m.isInitiate = true) :
    Goes c x (.stray m) { x with receiver := { x.receiver with inbox := x.receiver.inbox ++ [m] } }

theorem goes_of_step {c : Shipment} {x y : Exchange} {act : Exchange.Act} (h : c.step? x act = some y) :
    c.Goes x act y := by
  cases act with
  | sender act =>
    obtain ⟨r, hr, rfl⟩ := Option.map_eq_some_iff.mp h
    exact .sender hr
  | receiver act =>
    obtain ⟨r, hr, rfl⟩ := Option.map_eq_some_iff.mp h
    exact .receiver hr
  | reachReceiver =>
    cases hforth : x.forth with
    | nil => simp [step?, hforth] at h
    | cons m rest =>
      simp only [step?, hforth] at h
      cases h
      exact .reachReceiver hforth
  | reachSender =>
    cases hback : x.back with
    | nil => simp [step?, hback] at h
    | cons m rest =>
      simp only [step?, hback] at h
      cases h
      exact .reachSender hback
  | stray m =>
    obtain ⟨hm, h⟩ := Option.ite_none_right_eq_some.mp h
    cases h
    exact .stray (by simpa using hm)

/-- What acts make of both sides, if they are possible one after the other. -/
def run (c : Shipment) (acts : List Exchange.Act) (x : Exchange) : Option Exchange := acts.foldlM c.step? x

end Shipment
end ReplicaGroup
