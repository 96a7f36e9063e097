import ReplicaGroup.Config.Basic
import ReplicaGroup.Transfer.Receiver
import ReplicaGroup.Transfer.Sender

/-! # The life of a transfer

A transfer runs beside the engine that owns it. It reports the end of its run once, stays until its
owner stops it, and then reports that it has stopped. A transfer that is stopped while it runs reports a
fault. -/

namespace ReplicaGroup

/-- The side of a transfer. -/
inductive Role where
  | send
  | receive
deriving DecidableEq, Inhabited

/-- The end of a transfer's run. -/
structure Completion where
  id : TransferId
  role : Role
  outcome : Except Fault Metadata

/-- A running side of a transfer. -/
inductive Run where
  | sender (s : Sender)
  | receiver (r : Receiver)
deriving DecidableEq, Inhabited

namespace Run

/-- What the side does on a signal. -/
def signal (links : Links) (signal : Signal) : Run → Turn Run
  | sender s => (s.signal links signal).map .sender
  | receiver r => (r.signal links signal).map .receiver

/-- Whether the side waits for messages. -/
def isListening : Run → Bool
  | sender s => s.isListening
  | receiver r => r.isListening

/-- The fault of hearing nothing in time, if the side waits only for a limited time. -/
def silence? : Run → Option Fault
  | sender s => s.silence?
  | receiver r => r.silence?

end Run

/-- What a transfer has to do. -/
inductive Errand where
  | send (outbound : Outbound) (scanId : OpId)
  | receive
deriving DecidableEq, Inhabited

/-- How far a transfer is. -/
inductive Transfer.Stage where
  | created (errand : Errand)
  /-- Runs; a run that waits for a limited time gives up at the deadline. -/
  | running (run : Run) (deadline : Nat)
  /-- Has reported the end of its run and waits to be stopped. -/
  | reported
  | stopped
deriving DecidableEq, Inhabited

/-- A transfer and what is queued for it. -/
structure Transfer where
  id : TransferId
  role : Role
  /-- The address of the replica that the transfer belongs to. -/
  addr : Addr
  config : Config
  stage : Transfer.Stage
  mailbox : List Message := []
  /-- Whether nobody can send it messages any more. -/
  orphaned : Bool := false
  /-- The response of storage, or the news that it will never come. -/
  reply? : Option Signal := none
  /-- Whether its owner has stopped it. -/
  stopping : Bool := false

/-- What a transfer does for others to see. -/
inductive Transfer.Report where
  | deed (d : Deed)
  | completed (c : Completion)
  | stopped

namespace Transfer

/-- A transfer that sends. -/
def sending (addr : Addr) (config : Config) (outbound : Outbound) (scanId : OpId) : Transfer :=
  { id := outbound.id, role := .send, addr, config, stage := .created (.send outbound scanId) }

/-- A transfer that receives. -/
def receiving (addr : Addr) (config : Config) (id : TransferId) : Transfer :=
  { id, role := .receive, addr, config, stage := .created .receive }

/-- Whether messages can be sent to the transfer. -/
def isOpen (t : Transfer) : Bool :=
  match t.stage with
  | .created _ | .running .. => true
  | .reported | .stopped => false

/-- When the transfer gives up, if no message comes before. -/
def deadline? (t : Transfer) : Option Nat :=
  match t.stage with
  | .running run deadline => if run.silence?.isSome then some deadline else none
  | .created _ | .reported | .stopped => none

/-- The first turn of a run. -/
def begin (t : Transfer) (links : Links) : Errand → Turn Run
  | .send outbound scanId =>
    (Sender.start links outbound t.addr t.config.chunkEntries scanId).map .sender
  | .receive => .wait (.receiver ⟨t.config.quota, .opening⟩)

/-- Ends the run, which lets go of everything that is queued. -/
def finish (t : Transfer) (outcome : Except Fault Metadata) : Transfer × List Report :=
  ({ t with stage := .reported, mailbox := [], reply? := none }, [.completed ⟨t.id, t.role, outcome⟩])

/-- Goes on after a turn of the run; the time to wait starts anew. -/
def resume (t : Transfer) (now : Nat) (turn : Turn Run) : Transfer × List Report :=
  let (t, reports) := match turn.progress with
    | .waiting run => ({ t with stage := .running run (now + t.config.transferTimeout) }, [])
    | .ended outcome => t.finish outcome
  (t, turn.deeds.map .deed ++ reports)

/-- Ends a run that has to wait, if the transfer is stopped. -/
def halt? (t : Transfer) : Option (Transfer × List Report) :=
  if t.stopping then some (t.finish (.error (.transfer t.id .stopped))) else none

/-- One step; `none` means that the transfer has to wait. A run takes the response it waits for, or the
    next message; only when there is none, it is seen that no more can come, that the time is up, or that
    the transfer is stopped. -/
def step (t : Transfer) (links : Links) (now : Nat) : Option (Transfer × List Report) :=
  match t.stage with
  | .created errand => some (t.resume now (t.begin links errand))
  | .running run deadline =>
    if run.isListening then
      match t.mailbox with
      | m :: rest => some ({ t with mailbox := rest }.resume now (run.signal links (.message m)))
      | [] =>
        if t.orphaned then some (t.finish (.error .sourceClosed))
        else
          match run.silence? with
          | some fault => if deadline ≤ now then some (t.finish (.error fault)) else t.halt?
          | none => t.halt?
    else
      -- Storage is waited for without looking at messages or at the clock.
      match t.reply? with
      | some reply => some ({ t with reply? := none }.resume now (run.signal links reply))
      | none => t.halt?
  | .reported => if t.stopping then some ({ t with stage := .stopped }, [.stopped]) else none
  | .stopped => none

/-- The messages and the response that are queued. -/
def queued (t : Transfer) : Nat := t.mailbox.length + if t.reply?.isSome then 1 else 0

/-- The stages that a transfer still has before it, its own included. -/
def Stage.rank : Stage → Nat
  | .created _ => 3
  | .running .. => 2
  | .reported => 1
  | .stopped => 0

/-- A bound on the steps that are possible before something new comes. -/
def work (t : Transfer) : Nat := t.queued + t.stage.rank

theorem work_finish (t : Transfer) (outcome : Except Fault Metadata) : (t.finish outcome).1.work = 1 := rfl

theorem work_resume_le (t : Transfer) (now : Nat) (turn : Turn Run) :
    (t.resume now turn).1.work ≤ t.queued + 2 := by
  unfold resume
  cases turn.progress with
  | waiting run => exact Nat.le_refl _
  | ended outcome => exact work_finish t outcome ▸ Nat.le_add_left 1 (t.queued + 1)

theorem one_lt_work {t : Transfer} {run : Run} {deadline : Nat} (h : t.stage = .running run deadline) :
    1 < t.work := by
  rw [work, h]; exact Nat.lt_add_left _ (Nat.lt_add_one 1)

theorem work_halt?_lt {t u : Transfer} {reports : List Report} (ht : 1 < t.work)
    (h : t.halt? = some (u, reports)) : u.work < t.work := by
  unfold halt? at h
  split at h
  · cases h; exact ht
  · cases h

theorem work_step_lt {t u : Transfer} {links : Links} {now : Nat} {reports : List Report}
    (h : t.step links now = some (u, reports)) : u.work < t.work := by
  unfold step at h
  split at h
  · next errand hs =>
    have hw := work_resume_le t now (t.begin links errand)
    rw [Option.some.inj h] at hw
    exact Nat.lt_of_le_of_lt hw (by rw [work, hs]; exact Nat.lt_add_one _)
  · next run deadline hs =>
    have ht := one_lt_work hs
    split at h
    · split at h
      · next m rest hm =>
        have hw := work_resume_le { t with mailbox := rest } now (run.signal links (.message m))
        rw [Option.some.inj h] at hw
        refine Nat.lt_of_le_of_lt hw ?_
        simp only [work, queued, hs, hm, List.length_cons, Stage.rank]
        omega
      · split at h
        · cases h; exact ht
        · split at h
          · split at h
            · cases h; exact ht
            · exact work_halt?_lt ht h
          · exact work_halt?_lt ht h
    · split at h
      · next reply hr =>
        have hw := work_resume_le { t with reply? := none } now (run.signal links reply)
        rw [Option.some.inj h] at hw
        refine Nat.lt_of_le_of_lt hw ?_
        simp [work, queued, hs, hr, Stage.rank]
      · exact work_halt?_lt ht h
  · next hs =>
    split at h
    · cases h; simp [work, queued, hs, Stage.rank]
    · cases h
  · cases h

/-- Lets the transfer go on until it has to wait. -/
def poll (t : Transfer) (links : Links) (now : Nat) : Transfer × List Report :=
  match h : t.step links now with
  | none => (t, [])
  | some (u, reports) =>
    have := work_step_lt h
    let (v, later) := u.poll links now
    (v, reports ++ later)
termination_by t.work

end Transfer
end ReplicaGroup
