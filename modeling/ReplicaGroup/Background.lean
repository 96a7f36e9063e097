import ReplicaGroup.Engine.Basic

/-! # Background work of a replica

A replica's transfers run beside its engine, and requests wait in a queue for storage. Whoever has a
reason to go on is woken, and woken transfers go on in the order in which they were woken. -/

namespace ReplicaGroup

/-- Who waits for a response of storage. -/
inductive Requester where
  | engine
  | transfer (id : TransferId)
deriving DecidableEq, Inhabited

/-- The transfers of a replica and the requests that wait for its storage. -/
structure Background where
  transfers : List Transfer := []
  /-- The transfers that have a reason to go on. -/
  woken : List TransferId := []
  queue : List (Request × Option Requester) := []
  storeOpen : Bool := true

namespace Background

instance : Inhabited Background := ⟨{}⟩

/-- Notes that a transfer has a reason to go on. -/
def wake (b : Background) (id : TransferId) : Background :=
  if id ∈ b.woken then b else { b with woken := b.woken ++ [id] }

/-- Changes a transfer and wakes it. -/
def update (b : Background) (id : TransferId) (f : Transfer → Transfer) : Background :=
  let transfers := b.transfers.map fun t => if t.id = id then f t else t
  { b with transfers := transfers }.wake id

/-- Adds a transfer. -/
def start (b : Background) (t : Transfer) : Background := { b with transfers := b.transfers ++ [t] }.wake t.id

/-- Whether a transfer takes messages. -/
def isOpen (b : Background) (id : TransferId) : Bool := b.transfers.any fun t => t.id = id ∧ t.isOpen

/-- Queues a message for a transfer. -/
def deliver (b : Background) (id : TransferId) (m : Message) : Background :=
  b.update id fun t => { t with mailbox := t.mailbox ++ [m] }

/-- Stops a transfer. -/
def stop (b : Background) (id : TransferId) : Background :=
  b.update id fun t => { t with stopping := true }

/-- Leaves a transfer without anybody to send it messages. -/
def release (b : Background) (id : TransferId) : Background :=
  b.update id fun t => { t with orphaned := true }

/-- Leaves all transfers without anybody to send them messages. -/
def releaseAll (b : Background) : Background := b.transfers.foldl (fun b t => b.release t.id) b

/-- Queues a request to storage. -/
def submit (b : Background) (r : Request) (requester? : Option Requester) : Background :=
  { b with queue := b.queue ++ [(r, requester?)] }

/-- What an effect of the engine changes in the background; `none` if it changes nothing there. -/
def perform (b : Background) (addr : Addr) (config : Config) : Effect → Option Background
  | .request r => some (b.submit r (if r.wantsReply then some .engine else none))
  | .startSend outbound scanId => some (b.start (.sending addr config outbound scanId))
  | .startReceive id held? =>
    some ((b.start (.receiving addr config id)).update id fun t =>
      { t with mailbox := held?.toList.map .initiate })
  | .deliver id m => some (b.deliver id m)
  | .stopTransfer id => some (b.stop id)
  | .releaseTransfer id => some (b.release id)
  | .propose _ | .prune _ | .upcall _ => none

/-! ### Storage -/

/-- Hands a response, or the news that there will be none, to the transfer that waits for it. -/
def resolve (b : Background) (reply : Signal) : Option Requester → Background
  | some (.transfer id) => b.update id fun t => { t with reply? := some reply }
  | some .engine | none => b

/-- What executing queued requests did. -/
structure Served where
  background : Background
  store : Store
  /-- The responses, in order. -/
  responses : List Response := []
  /-- The responses that the engine waits for, in order. -/
  replies : List Response := []
  calls : List (String × ActionCall) := []

/-- Executes requests in order. -/
def serveAll (b : Background) (store : Store) : List (Request × Option Requester) → Served
  | [] => ⟨b, store, [], [], []⟩
  | (r, requester?) :: rest =>
    let e := r.execute store
    let later := serveAll (b.resolve (.response e.response) requester?) e.store rest
    { later with
      responses := e.response :: later.responses
      replies := (if requester? = some .engine then [e.response] else []) ++ later.replies
      calls := e.calls ++ later.calls }

/-- Executes the first `count` queued requests. -/
def serve (b : Background) (store : Store) (count : Nat) : Served :=
  serveAll { b with queue := b.queue.drop count } store (b.queue.take count)

/-- Answers the first queued request with a response; also the response, if the engine waits for it. -/
def answerFirst (b : Background) (response : Response) : Background × Option Response :=
  match b.queue with
  | [] => (b, none)
  | (_, requester?) :: rest =>
    ({ b with queue := rest }.resolve (.response response) requester?,
      if requester? = some .engine then some response else none)

/-- Discards the first `count` queued requests. -/
def drop (b : Background) (count : Nat) : Background :=
  (b.queue.take count).foldl (fun b r => b.resolve .replyLost r.2) { b with queue := b.queue.drop count }

/-- Closes storage and discards what is queued. -/
def closeStore (b : Background) : Background := { b.drop b.queue.length with storeOpen := false }

/-! ### Transfers -/

/-- Wakes the transfers whose deadline has come, the earliest deadline first. -/
def expire (b : Background) (now : Nat) : Background :=
  let due := b.transfers.filterMap fun t => t.deadline?.bind fun d => if d ≤ now then some (d, t.id) else none
  (due.mergeSort fun a c => a.1 ≤ c.1).foldl (fun b p => b.wake p.2) b

/-- Lets one transfer go on as far as it can. Its requests are queued; what else it does is reported. -/
def poll (b : Background) (carries : Addr → Message → Except Fault Unit) (now : Nat) (id : TransferId) :
    Background × List (TransferId × Transfer.Report) :=
  match b.transfers.find? fun t => t.id = id with
  | none => (b, [])
  | some t =>
    let (t, reports) := t.poll ⟨b.storeOpen, carries⟩ now
    let b := { b with transfers := b.transfers.map fun u => if u.id = id then t else u }
    let b := reports.foldl (fun b report =>
      match report with
      | .deed (.request r) => b.submit r (some (.transfer id))
      | _ => b) b
    (b, reports.map fun report => (id, report))

/-- Lets every woken transfer go on, in the order of waking. -/
def settle (b : Background) (carries : Addr → Message → Except Fault Unit) (now : Nat) :
    Background × List (TransferId × Transfer.Report) :=
  b.woken.foldl
    (fun (b, reports) id =>
      let (b, more) := b.poll carries now id
      (b, reports ++ more))
    ({ b with woken := [] }, [])

end Background
end ReplicaGroup
