import ReplicaGroup.Fault
import ReplicaGroup.Store.Request
import ReplicaGroup.Transfer.Message

/-! # What the two sides of a transfer have in common

A side waits for a signal, and answers it with requests to storage and messages to the other side. It
goes on until it ends, with the transfer's metadata or with a fault. -/

namespace ReplicaGroup

/-- What a side of a transfer finds around it. -/
structure Links where
  /-- Whether storage takes requests. -/
  storeOpen : Bool
  /-- Whether a message reaches an address. -/
  carries : Addr → Message → Except Fault Unit

/-- What a side of a transfer waits for. -/
inductive Signal where
  | message (m : Message)
  | response (r : Response)
  /-- The response that was waited for will never come. -/
  | replyLost

/-- What a side of a transfer does. -/
inductive Deed where
  | request (r : Request)
  | send (dest : Addr) (m : Message)

/-- Whether a side goes on, in a state of type `σ`, or has ended. -/
inductive Progress (σ : Type) where
  | waiting (state : σ)
  | ended (outcome : Except Fault Metadata)

/-- What a side did on a signal, and how it goes on. -/
structure Turn (σ : Type) where
  progress : Progress σ
  deeds : List Deed

namespace Turn

variable {σ τ : Type}

/-- Goes on without doing anything. -/
def wait (s : σ) : Turn σ := ⟨.waiting s, []⟩

/-- Ends with a fault. -/
def fail (f : Fault) : Turn σ := ⟨.ended (.error f), []⟩

/-- Ends well. -/
def finish (m : Metadata) : Turn σ := ⟨.ended (.ok m), []⟩

/-- Does something first. -/
def after (d : Deed) (t : Turn σ) : Turn σ := { t with deeds := d :: t.deeds }

/-- Submits a request and goes on, unless storage takes no requests. -/
def requesting (links : Links) (r : Request) (s : σ) : Turn σ :=
  if links.storeOpen then ⟨.waiting s, [.request r]⟩ else fail .channelClosed

/-- Sends a message and goes on with `next`, unless the message does not reach its destination. -/
def sending (links : Links) (dest : Addr) (m : Message) (next : Turn σ) : Turn σ :=
  match links.carries dest m with
  | .error f => fail f
  | .ok () => next.after (.send dest m)

/-- The same turn with the state seen as part of another one. -/
def map (f : σ → τ) (t : Turn σ) : Turn τ :=
  ⟨match t.progress with
    | .waiting s => .waiting (f s)
    | .ended outcome => .ended outcome, t.deeds⟩

end Turn
end ReplicaGroup
