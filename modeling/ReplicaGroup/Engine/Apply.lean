import ReplicaGroup.Engine.Basic

/-! # Applying decided values

What a decided value does to a replica. A move to a newer view makes a new replica receive the group's
state, and makes serving replicas send theirs to the joining members they are responsible for. -/

namespace ReplicaGroup.Engine

/-- Applies a decided operation. -/
def applyOp (h : Host) (position : Position) (op : Operation) (e : Engine) : Step :=
  match Rule.find? e.mode op.kind with
  | none => e.respond h ⟨op.id, .failed .unsupported⟩
  | some rule =>
    let initiation := rule.initiate op position e.version
    let issued := match initiation.request? with
      | some request => e.issue h request
      | none => e.done
    let answered := issued.andThen fun e =>
      match initiation.answer? with
      | some answer => e.respond h answer
      | none => e.done
    answered.andThen fun e =>
      match initiation.captured? with
      | some position => { e with lastSnapshot := position }.done
      | none => e.done

/-- Starts to send the state as of a position to a joining member. -/
def startSend (h : Host) (position : Position) (recipient : Addr) (e : Engine) : Step :=
  let (number, e) := e.draw h
  let (scanNumber, e) := e.draw h
  let id : TransferId := ⟨number⟩
  { engine := { e with outgoing := e.outgoing ++ [id] }
    effects := [.startSend ⟨id, recipient, e.range, ⟨some position, some e.version⟩⟩ ⟨scanNumber⟩] }

/-- Starts to receive the group's state. -/
def startReceive (h : Host) (e : Engine) : Step :=
  let (number, e) := e.draw h
  let id : TransferId := ⟨number⟩
  { engine := { e with incoming? := some id, held? := none }
    effects := [.startReceive id e.held?] }

/-- Ends the transferring mode when no sending transfer is left. -/
def finishTransferring (e : Engine) : Engine :=
  if e.mode = .transferring ∧ e.outgoing = [] then { e with mode := .active } else e

/-- Applies a decided move to a view, unless the view is not newer than the installed one. -/
def reconfigure (h : Host) (position : Position) (r : Reconfiguration) (e : Engine) : Step :=
  if r.view.isNewerThan e.view then
    let old := e.view
    -- Taken over first, so that it stays also where no version is left.
    let e := { e with view := r.view, quorum := r.quorum, range := r.range }
    match e.mode with
    | .passive =>
      e.nextVersion r.version fun version e =>
        { e with version := version, mode := .catchingUp }.startReceive h
    | .catchingUp =>
      e.nextVersion r.version fun version e => { e with version := max e.version version }.done
    | .active | .transferring =>
      e.nextVersion e.version fun version e =>
        let e := { e with version := version, mode := .transferring }
        (Step.forEach (startSend h position) (old.recipients r.view h.addr).toList e).andThen
          fun e => e.finishTransferring.done
  else e.done

/-- The captured writes of the operations decided after the snapshot and before the marker. -/
def replay (e : Engine) (snapshot marker : Position) : List Request :=
  ((e.log.operationsAfter snapshot).takeWhile fun p => p.1 < marker).filterMap fun p =>
    (Rule.find? .active p.2.kind).bind fun rule => rule.capture? p.2 e.version

/-- Applies a decided marker. The replica that proposed it replays the writes decided since the snapshot
    it received, drops what it does not need, and serves from now on. -/
def syncedUp (h : Host) (position : Position) (marker : OpId) (e : Engine) : Step :=
  match e.syncing? with
  | none => e.done
  | some s =>
    if s.marker = marker then
      let e := { e with syncing? := none, version := max e.version s.version }
      let replayed := e.issue h (.snapshot position (e.replay s.snapshot position))
      -- Until storage answers the replay, only the received state is known to be there.
      let cleaned := replayed.andThen fun e =>
        { e with lastSnapshot := s.snapshot }.issue h (.cleanup e.range s.version)
      cleaned.andThen fun e => { e with mode := .active }.tell h .synced
    else e.done

/-- Applies the value decided at a position. -/
def apply (h : Host) (position : Position) (value : Value) (e : Engine) : Step :=
  match value with
  | .op op => e.applyOp h position op
  | .reconfigure r => e.reconfigure h position r
  | .scan _ range => e.issue h (.size range)
  | .syncedUp id => e.syncedUp h position id
  | .noop _ | .unknown .. => e.done

/-- Takes a decision into the log, and applies the values that are released by it. -/
def decide (h : Host) (d : Decision) (e : Engine) : Step :=
  let (log, ready) := e.log.insert d.position d.value
  Step.forEach (fun (p : Position × Value) => apply h p.1 p.2) ready { e with log := log }

/-- Prunes the log up to what storage holds. -/
def prune (h : Host) (e : Engine) : Step :=
  if e.lastSnapshot ≤ e.pruned then e.done
  else
    { e with pruned := e.lastSnapshot, log := e.log.prune e.lastSnapshot }.emit h.logOpen
      (.prune e.lastSnapshot)

end ReplicaGroup.Engine
